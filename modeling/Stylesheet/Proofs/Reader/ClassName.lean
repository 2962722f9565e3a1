import Stylesheet.Proofs.RoundTrip.Nodes
import Stylesheet.Proofs.Text.Identifier

/-!
# Reading the name of a class

The glyphs of an identifier are read one by one into the name of a selector, and what is read of them is what
`rewriteAll` makes of them. So the name denotes the code points that were written, unless an escape runs into the next
one (`codePoints_read_class`).
-/

namespace Stylesheet.Reader

open Text State Text.Escape List
open String (ofList)

variable {digits : List Char} {glyphs : List Glyph}
variable {o : Options} {tail : List Char} {returns : List Mode} {frames : List Frame} {selector : String}

theorem reads_selector_dot :
    Reads o tail { mode := .selector, returns, frames, selector } "."
      { mode := .selector, returns, frames, selector := selector ++ "." } := by
  refine Reads.of_token (c := '.') (by decide) (by decide) nofun fun s k hs _ htoken hcomment => ?_
  refine ⟨{ s with selector := s.selector ++ "." }, ?_, ?_⟩
  · rw [step_selector hs.mode]
    simp [inSelector, htoken, hcomment]
    rfl
  · exact ⟨hs.mode, hs.returns, hs.builds, hs.origin, congrArg (· ++ ".") hs.selector, hs.property, hs.word, hs.done,
      hs.headless⟩

/-! ## Escapes -/

/-- An escape goes into the name of a selector as it is written. -/
theorem reads_selector_escape {taken : List Char} {text : String} (hne : taken ≠ []) (hreturn : '\r' ∉ taken)
    (hlast : taken.getLast? ≠ some '\\')
    (hlength : (read o.removeBackslash (taken ++ tail)).length = taken.length)
    (htext : (read o.removeBackslash (taken ++ tail)).text = text) :
    Reads o tail { mode := .selector, returns, frames, selector } (ofList ('\\' :: taken))
      { mode := .selector, returns, frames, selector := selector ++ text } := by
  refine Reads.of_step ?_ ?_ nofun fun s k hs hescaped hrest => ?_
  · simpa using hreturn
  · rw [getLast?_cons_of_ne_nil hne]
    exact hlast
  · have htoken : k.atToken = true := (atToken_eq hescaped hrest).trans (by decide)
    have hafter : k.rest.drop 1 = taken ++ tail := by rw [hrest, drop_succ_cons, drop_zero]
    generalize hread : s.readEscape o k = e
    obtain ⟨written, t, n⟩ := e
    obtain ⟨line, new, -, rfl⟩ := readEscape_eq hread
    have hwritten : written = text := by
      rw [← htext, ← hafter]
      exact (congrArg Prod.fst hread).symm
    have hn : n = taken.length := by
      rw [← hlength, ← hafter]
      exact (congrArg (·.2.2) hread).symm
    refine ⟨{ s with line, log := s.log ++ new, selector := s.selector ++ text }, ?_, ?_⟩
    · rw [step_selector hs.mode]
      simp [inSelector, htoken, atComment_eq_false hrest (by decide), hread, hn, hwritten]
    · exact ⟨hs.mode, hs.returns, hs.builds.congr rfl rfl, hs.origin, congrArg (· ++ _) hs.selector, hs.property,
        hs.word, hs.done, hs.headless⟩

/-- A blank behind an escape. -/
theorem spaced_append_digits (hdigits : ∀ d ∈ digits, d.isHexDigit = true) (hne : digits ≠ [])
    (text : String) : spaced (text ++ ofList digits) = text ++ ofList digits ++ " " := by
  obtain ⟨front, d, rfl⟩ := (eq_nil_or_concat' digits).resolve_left hne
  have hlast : last? (text ++ ofList (front ++ [d])) = some d := by
    rw [last?, String.toList_append, String.toList_ofList, ← append_assoc, getLast?_concat]
  have hd := hdigits d (by simp)
  have hplain : (d == ',' || d == ' ') = false := by
    have hne (e : Char) (he : e.isHexDigit = false) : (d == e) = false := by
      rw [beq_eq_false_iff_ne]
      rintro rfl
      exact absurd (hd.symm.trans he) (by decide)
    rw [hne ',' (by decide), hne ' ' (by decide)]
    rfl
  rw [spaced, hlast]
  simp only [hplain, Bool.false_eq_true, if_false]
  rfl

/-- The text of an escape that names no letter or digit. -/
theorem text_read_of_kept {space : Bool} (h : IsEscape digits space tail)
    (hnamed : (Glyph.escape digits space).named? = none) (drop : Bool) :
    (read drop (digits ++ (blank space ++ tail))).text = ofList ('\\' :: digits) := by
  have htext := h.text_read drop
  rw [hnamed] at htext
  rw [← String.ofList_toList (s := (read _ _).text), htext]
  rfl

/-- **An escape** is read as what it is rewritten to. -/
theorem reads_selector_glyph {space : Bool} (h : IsEscape digits space tail) (htail : tail.head?.any isSpace = false) :
    Reads o tail { mode := .selector, returns, frames, selector } (ofList (Glyph.write (.escape digits space)))
      { mode := .selector, returns, frames
        selector := selector ++ ofList (Glyph.rewrite (.escape digits space) tail) } := by
  have hlength : (read o.removeBackslash (digits ++ (blank space ++ tail))).length = _ :=
    (length_read _ _).trans (h.takenLength_eq htail)
  have hreturn : '\r' ∉ digits := fun hmem => absurd (h.hex _ hmem) (by decide)
  have hlast : digits.getLast? ≠ some '\\' := fun hmem => absurd (h.hex _ (mem_of_getLast? hmem)) (by decide)
  by_cases hback : (space && (tail.head?.any Char.isHexDigit && (Glyph.escape digits space).named?.isNone)) = true
  · -- the blank that keeps the next digit apart is read on its own
    simp only [Bool.and_eq_true, Option.isNone_iff_eq_none] at hback
    obtain ⟨rfl, hhex, hnamed⟩ := hback
    have hescape : Reads o (blank true ++ tail) { mode := .selector, returns, frames, selector }
        (ofList ('\\' :: digits))
        { mode := .selector, returns, frames, selector := selector ++ ofList ('\\' :: digits) } := by
      have hdigits : (read o.removeBackslash (digits ++ (blank true ++ tail))).length = digits.length := by
        rw [hlength, hhex, hnamed]
        rfl
      exact reads_selector_escape h.ne_nil hreturn hlast hdigits (text_read_of_kept h hnamed _)
    have hblank : (ofList [' ']).toList = blank true := String.toList_ofList
    have hcons (rest : List Char) : ofList ('\\' :: rest) = "\\" ++ ofList rest := by
      rw [← singleton_append, String.ofList_append]
    have hwrite : Glyph.write (.escape digits true) = '\\' :: digits ++ [' '] := rfl
    have hrewrite : Glyph.rewrite (.escape digits true) tail = '\\' :: digits ++ [' '] := by
      rw [Glyph.rewrite, hnamed, hhex]
      rfl
    rw [← hblank] at hescape
    have hread := hescape.append (reads_selector_blank (.inl rfl))
    rw [hcons, ← String.append_assoc, spaced_append_digits h.hex h.ne_nil] at hread
    rw [hwrite, hrewrite, String.ofList_append, hcons, ← String.append_assoc, ← String.append_assoc]
    exact hread
  · have hkept {a b : Bool} (h : ¬ (a && b) = true) : (a && !b) = a := by
      revert h
      cases a <;> cases b <;> decide
    rw [hkept hback, ← length_append, ← append_assoc] at hlength
    have htext : (read o.removeBackslash (digits ++ blank space ++ tail)).text =
        ofList (Glyph.rewrite (.escape digits space) tail) := by
      rw [append_assoc, ← String.ofList_toList (s := (read _ _).text), h.text_read, Glyph.rewrite]
      cases hnamed : (Glyph.escape digits space).named? with
      | some c => rfl
      | none =>
        have hno : (space && tail.head?.any Char.isHexDigit) = false := by simpa [hnamed] using hback
        rw [hno, blank]
        simp
    refine reads_selector_escape (append_ne_nil_of_left_ne_nil h.ne_nil _) ?_ ?_ hlength htext
    · cases space <;> simp [blank, hreturn]
    · cases space <;> simp [blank, hlast]

/-- What a glyph is rewritten to depends on whether a digit follows, and on nothing else. -/
theorem rewrite_congr (g : Glyph) {next next' : List Char}
    (h : next.head?.any Char.isHexDigit = next'.head?.any Char.isHexDigit) : g.rewrite next = g.rewrite next' := by
  cases g with
  | plain c => rfl
  | escape digits space => rw [Glyph.rewrite, Glyph.rewrite, h]

/-- **An identifier** in front of a brace is read as what its glyphs are rewritten to. -/
theorem reads_selector_identifier (h : IsIdentifier glyphs) (rest : List Char) :
    Reads o ('{' :: rest) { mode := .selector, returns, frames, selector } (ofList (writeAll glyphs))
      { mode := .selector, returns, frames, selector := selector ++ ofList (rewriteAll glyphs) } := by
  induction h generalizing selector with
  | nil =>
    rw [writeAll, rewriteAll, flatMap_nil, String.ofList_nil, String.append_empty]
    exact Reads.nil
  | @plain c glyphs hc _ ih =>
    have hword : IsWord (ofList [c]) :=
      ⟨by simp, by simpa using isOrdinary_of_isNameChar hc, by simpa using (ne_of_isNameChar hc (by decide)).symm⟩
    have hend : ∃ d ∈ (ofList (writeAll glyphs)).toList ++ '{' :: rest, isOrdinary d = false :=
      ⟨'{', by simp, by decide⟩
    have hread : Reads o ('{' :: rest) { mode := .selector, returns, frames, selector }
        (ofList [c] ++ ofList (writeAll glyphs))
        { mode := .selector, returns, frames, selector := selector ++ ofList [c] ++ ofList (rewriteAll glyphs) } :=
      (reads_word (by simp) hword hend).append ih
    rwa [← String.ofList_append, String.append_assoc, ← String.ofList_append] at hread
  | @escape digits space glyphs hescape _ _ h ih =>
    have hhead (p : Char → Bool) (hp : p '{' = false) :
        ((ofList (writeAll glyphs)).toList ++ '{' :: rest).head?.any p = (writeAll glyphs).head?.any p := by
      rw [String.toList_ofList]
      cases writeAll glyphs with
      | nil => exact hp
      | cons c more => rfl
    have hhex := hhead Char.isHexDigit (by decide)
    have hbehind : IsEscape digits space ((ofList (writeAll glyphs)).toList ++ '{' :: rest) :=
      ⟨hescape.hex, hescape.ne_nil, hescape.length_le, by rw [hhex]; exact hescape.ends⟩
    have hread : Reads o ('{' :: rest) { mode := .selector, returns, frames, selector }
        (ofList (Glyph.write (.escape digits space)) ++ ofList (writeAll glyphs)) _ :=
      (reads_selector_glyph hbehind ((hhead isSpace (by decide)).trans h.head_writeAll)).append ih
    rwa [rewrite_congr _ hhex, ← String.ofList_append, String.append_assoc, ← String.ofList_append] at hread

/-! ## Whole rules -/

/-- What an identifier is rewritten to does not end with space, since a blank is kept in front of a digit only. -/
theorem getLast?_append_rewriteAll (h : IsIdentifier glyphs) (front : List Char)
    (hfront : glyphs = [] → ∀ c ∈ front.getLast?, isSpace c = false) :
    ∀ c ∈ (front ++ rewriteAll glyphs).getLast?, isSpace c = false := by
  induction h generalizing front with
  | nil =>
    rw [rewriteAll, append_nil]
    exact hfront rfl
  | @plain c glyphs hc _ ih =>
    rw [rewriteAll, ← append_assoc]
    refine ih _ fun _ d hd => ?_
    rw [Glyph.rewrite, getLast?_concat] at hd
    rw [← Option.some.inj hd]
    exact isSpace_of_isNameChar hc
  | @escape digits space glyphs hescape _ hvalid _ ih =>
    rw [rewriteAll, ← append_assoc]
    refine ih _ fun hnil d hd => ?_
    rw [Glyph.rewrite, hnil] at hd
    cases hnamed : (Glyph.escape digits space).named? with
    | some c =>
      rw [hnamed, getLast?_concat] at hd
      rw [← Option.some.inj hd]
      exact isSpace_of_isNameChar (isNameChar_of_named? hvalid hnamed).1
    | none =>
      have hblank : blank (space && (writeAll []).head?.any Char.isHexDigit) = [] := by cases space <;> rfl
      rw [hnamed] at hd
      simp only [hblank, append_nil] at hd
      rw [getLast?_append_of_ne_nil _ (cons_ne_nil _ _), getLast?_cons_of_ne_nil hescape.ne_nil] at hd
      exact isSpace_of_isHexDigit (hescape.hex d (mem_of_getLast? hd))

/-- The rule of a class with an identifier for its name. -/
theorem tree_read_class (h : IsIdentifier glyphs) :
    (Document.read {} ("." ++ ofList (writeAll glyphs) ++ "\x7btop:0\x7d")).1.tree =
      [.block ("." ++ ofList (rewriteAll glyphs))
        (.selector (fragmentsOf ("." ++ ofList (rewriteAll glyphs)))) (.ofList [("top", ⟨"0", false⟩)]) []] := by
  have hplain : Options.Plain {} := ⟨rfl, rfl, rfl, by decide⟩
  have htrim : trim ("." ++ ofList (rewriteAll glyphs)) = "." ++ ofList (rewriteAll glyphs) := by
    apply trim_eq_self
    · rw [String.toList_append]
      rintro _ ⟨⟩
      decide
    · rw [String.toList_append, String.toList_ofList (l := rewriteAll glyphs)]
      refine getLast?_append_rewriteAll h ['.'] fun _ => ?_
      rintro _ ⟨⟩
      decide
  have hselector (rest : List Char) : Reads {} ('{' :: rest) (.bare .selector [] [.root])
      ("." ++ ofList (writeAll glyphs))
      { mode := .selector, returns := [], frames := [.root], selector := "." ++ ofList (rewriteAll glyphs) } :=
    reads_selector_dot.append (reads_selector_identifier h rest)
  have hvalue (frames : List Frame) :
      Reads {} ['}', ' '] (.ruleValue "top" frames {}) "0" (.ruleValue "top" frames ⟨"0", []⟩) :=
    reads_part_word (.inl rfl) (by decide) ⟨'}', by simp, by decide⟩
  have htree := (tree_of_rule hplain hselector (by decide) hvalue).1
  have hdeclared : declared {} "top" (Value.Parts.all ⟨"0", []⟩) = some ("top", ⟨"0", false⟩) := by decide +kernel
  have hrule : "\x7btop:0\x7d" = "\x7b" ++ ("top" ++ (":" ++ ("0" ++ "\x7d"))) := rfl
  rw [htrim, hdeclared] at htree
  simp only [String.append_assoc] at htree
  rw [hrule, String.append_assoc]
  exact htree

/-- **The name of a class keeps its code points** if and only if none of its escapes runs into the next one. -/
theorem codePoints_read_class {glyphs : List Glyph} (h : IsIdentifier glyphs) :
    ∃ name fragments,
      (Document.read {} ("." ++ String.ofList (writeAll glyphs) ++ "\x7btop:0\x7d")).1.tree =
        [.block ("." ++ name) (.selector fragments) (.ofList [("top", ⟨"0", false⟩)]) []] ∧
      (codePoints name.toList = codePoints (writeAll glyphs) ↔ glyphs.IsChain fun g next => ¬ g.RunsInto next) := by
  refine ⟨_, _, tree_read_class h, ?_⟩
  rw [String.toList_ofList]
  exact h.codePoints_rewriteAll_iff

/-- An accented letter in front of a letter that could be another digit, and of an escape that names one. -/
def accentedName : List Glyph := [.escape ['e', '9'] true, .plain 'b', .escape ['6', '2'] false, .plain '-']

theorem codePoints_read_accentedName :
    IsIdentifier accentedName ∧ writeAll accentedName = "\\e9 b\\62-".toList ∧
    ∃ name fragments,
      (Document.read {} ("." ++ String.ofList (writeAll accentedName) ++ "\x7btop:0\x7d")).1.tree =
        [.block ("." ++ name) (.selector fragments) (.ofList [("top", ⟨"0", false⟩)]) []] ∧
      (codePoints name.toList = codePoints (writeAll accentedName) ↔
        accentedName.IsChain fun g next => ¬ g.RunsInto next) := by
  have h : IsIdentifier accentedName :=
    .escape ⟨List.all_eq_true.mp rfl, by decide, by decide, by decide⟩ (by decide) (by decide) <| .plain (by decide) <|
      .escape ⟨List.all_eq_true.mp rfl, by decide, by decide, by decide⟩ (by decide) (by decide) <| .plain (by decide) .nil
  exact ⟨h, by decide, codePoints_read_class h⟩

/-- An accented letter in front of an escape that names a digit. -/
def joinedName : List Glyph := [.escape ['e', '9'] false, .escape ['6', '2'] false]

/-- **Two escapes become one**: what is left of the second runs into the first. -/
theorem codePoints_read_joinedName :
    writeAll joinedName = "\\e9\\62".toList ∧ codePoints (writeAll joinedName) = [0xE9, 0x62] ∧
    ∃ fragments,
      (Document.read {} ("." ++ String.ofList (writeAll joinedName) ++ "\x7btop:0\x7d")).1.tree =
        [.block ".\\e9b" (.selector fragments) (.ofList [("top", ⟨"0", false⟩)]) []] ∧
      codePoints "\\e9b".toList = [0xE9B] := by
  have h : IsIdentifier joinedName :=
    .escape ⟨List.all_eq_true.mp rfl, by decide, by decide, by decide⟩ (by decide) (by decide) <|
      .escape ⟨List.all_eq_true.mp rfl, by decide, by decide, by decide⟩ (by decide) (by decide) .nil
  refine ⟨by decide, h.codePoints_writeAll.trans (by decide), _, tree_read_class h, ?_⟩
  decide +kernel

end Stylesheet.Reader
