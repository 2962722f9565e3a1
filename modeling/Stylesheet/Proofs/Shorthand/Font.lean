import Stylesheet.Proofs.Shorthand.FontParts
import Stylesheet.Proofs.Shorthand.Ungrouped
import Stylesheet.Proofs.Shorthand.Words

/-!
# Gathering a font and dissolving it again

The longhands of `font` are gathered to one text: keywords that are not the initial ones, the size with the line height behind
a slash, and the families. If each longhand has a plain value, the parts of that text are told apart as they were put together
(`read?_front`), so that dissolving it gives the longhands back (`dissolve_gathered_font`).
-/

namespace Stylesheet.Shorthand

open Declarations Text List

/-! ## Plain values -/

/-- A character of a size or a line height. -/
def isSizeChar (c : Char) : Bool := c.isAlphanum || c == '.' || c == '%' || c == '-'

/-- A character of the name of a family. -/
def isFamilyChar (c : Char) : Bool := c.isAlphanum || c == '-'

/-- The name of a family is a word, or words between quotes. -/
inductive IsFamily : String → Prop
  | word {name : String} (hne : name ≠ "") (hchars : name.toList.all isFamilyChar = true) : IsFamily name
  | quoted {content : String} (hchars : content.toList.all (fun c => isFamilyChar c || c == ' ') = true) :
    IsFamily ("\"" ++ content ++ "\"")

/-- A text that starts like a number. -/
def startsSize (text : String) : Bool := text.toList.head?.any fun c => c.isDigit || c == '.'

/-- The values of the longhands of a font. -/
structure FontValues where
  style : String
  variant : String
  weight : String
  size : String
  lineHeight : String
  family : String

namespace FontValues

/-- The longhands, all of them equally important. -/
def declarations (v : FontValues) (important : Bool) : List Declaration :=
  [("font-style", ⟨v.style, important⟩), ("font-variant", ⟨v.variant, important⟩), ("font-weight", ⟨v.weight, important⟩),
    ("font-size", ⟨v.size, important⟩), ("line-height", ⟨v.lineHeight, important⟩), ("font-family", ⟨v.family, important⟩)]

/-- Values of which none can be taken for another one in the text of a font. -/
structure Plain (v : FontValues) : Prop where
  style : v.style = "normal" ∨ v.style ∈ fontStyles
  variant : v.variant = "normal" ∨ v.variant = "small-caps"
  weight : v.weight = "normal" ∨ v.weight ∈ fontWeights
  size_start : startsSize v.size = true
  size_chars : v.size.toList.all isSizeChar = true
  size_not_weight : v.size ∉ fontWeights
  lineHeight_ne : v.lineHeight ≠ ""
  lineHeight_chars : v.lineHeight.toList.all isSizeChar = true
  lineHeight_own : isWideKeyword v.lineHeight = false
  family : ∃ names, names ≠ [] ∧ (∀ name ∈ names, IsFamily name) ∧ v.family = joinWith "," names
  family_own : isWideKeyword v.family = false

/-- A value that is told because it is not the initial one. -/
def told? (text : String) : Option String := if text = "normal" then none else some text

/-- The size with the line height behind a slash, unless that is the initial one. -/
def sizeWord (v : FontValues) : String := if v.lineHeight = "normal" then v.size else v.size ++ "/" ++ v.lineHeight

/-- The words in front of the family. -/
def front (v : FontValues) : List String :=
  (told? v.style).toList ++ (told? v.variant).toList ++ (told? v.weight).toList ++ [v.sizeWord]

end FontValues

/-! ## Words of a font -/

theorem isMeasureChar_of_isSizeChar {c : Char} (h : isSizeChar c = true) : Value.isMeasureChar c = true := by
  simp only [isSizeChar, Bool.or_eq_true, beq_iff_eq] at h
  rcases h with ((halnum | rfl) | rfl) | rfl
  · simp [Value.isMeasureChar, halnum]
  all_goals decide

theorem isMeasureChar_of_isFamilyChar {c : Char} (h : isFamilyChar c = true) : Value.isMeasureChar c = true :=
  isMeasureChar_of_isSizeChar (by grind [isFamilyChar, isSizeChar])

theorem IsFamily.plainWord {name : String} (h : IsFamily name) : PlainWord name := by
  cases h with
  | word hne hchars =>
    exact .of_isMeasure ⟨hne, fun c hc => isMeasureChar_of_isFamilyChar (all_eq_true.mp hchars c hc)⟩
  | @quoted content hchars =>
    have hquote : "\"".toList = ['"'] := rfl
    have hlist : ("\"" ++ content ++ "\"").toList = '"' :: (content.toList ++ ['"']) := by
      rw [String.toList_append, String.toList_append, hquote]
      rfl
    have hplain : ∀ c ∈ content.toList, (c ≠ '"' ∧ c ≠ '\\') ∧ (isSpace c = true → c = ' ') ∧ c ≠ '(' := by
      intro c hc
      have hchar := all_eq_true.mp hchars c hc
      rw [Bool.or_eq_true, beq_iff_eq] at hchar
      rcases hchar with hfamily | rfl
      · obtain ⟨⟨hnests, hbackslash⟩, hspace, -, -, hcall⟩ := inert_of_isMeasureChar (isMeasureChar_of_isFamilyChar hfamily)
        refine ⟨⟨?_, hbackslash⟩, fun h => absurd (h.symm.trans hspace) (by decide), hcall⟩
        rintro rfl
        exact absurd hnests (by decide)
      · decide
    have hlevel : Nesting.outside.Level := ⟨rfl, rfl⟩
    have hblank := whole_string ' ' hlevel fun c hc => (hplain c hc).1
    have hcomma := whole_string ',' hlevel fun c hc => (hplain c hc).1
    rw [← hlist] at hblank hcomma
    refine ⟨words_eq_singleton_iff.mpr ⟨?_, ?_, hblank.1⟩, hblank.2, hcomma.1, ⟨?_, ?_⟩, ?_⟩
    · intro hempty
      rw [hempty] at hlist
      cases hlist
    · rw [blanked_eq_self_iff, hlist]
      intro c hc hspace
      rcases mem_cons.mp hc with rfl | hc
      · exact absurd hspace (by decide)
      · rcases mem_append.mp hc with hc | hc
        · exact (hplain c hc).2.1 hspace
        · rw [mem_singleton.mp hc] at hspace
          exact absurd hspace (by decide)
    · rw [hlist]
      intro c hc
      obtain rfl := Option.some.inj hc
      decide
    · rw [hlist, ← cons_append, getLast?_concat]
      intro c hc
      obtain rfl := Option.some.inj hc
      decide
    · rw [hlist]
      intro hmem
      rcases mem_cons.mp hmem with heq | hmem
      · exact absurd heq (by decide)
      · rcases mem_append.mp hmem with hmem | hmem
        · exact (hplain _ hmem).2.2 rfl
        · exact absurd (mem_singleton.mp hmem) (by decide)

theorem notMem_of_isSizeChar {c : Char} (hc : isSizeChar c = false) {text : String}
    (h : text.toList.all isSizeChar = true) : c ∉ text.toList :=
  fun hmem => absurd ((all_eq_true.mp h c hmem).symm.trans hc) (by decide)

/-! ## Numbers in small letters -/

/-- Small letters change nothing about the start of a number. -/
theorem startsSize_lower {w : String} (h : startsSize w = true) : startsSize (lower w) = true := by
  cases hc : w.toList.head? with
  | none => simp [startsSize, hc] at h
  | some c =>
    have hstart : c.isDigit = true ∨ c = '.' := by simpa [startsSize, hc] using h
    have hlt : c.val < 65 := by
      rcases hstart with hdigit | rfl
      · exact val_lt_of_isDigit hdigit
      · decide
    rw [startsSize, head?_lower hc hlt, ← hc]
    exact h

theorem isDigit_of_toLower {c : Char} (h : c.toLower.isDigit = true) : c.isDigit = true := by
  rcases toLower_cases c with ⟨-, hsame⟩ | ⟨hupper, hval⟩
  · rwa [hsame] at h
  · simp only [Char.isDigit, hval, Bool.and_eq_true, decide_eq_true_eq] at h
    grind

/-- Digits are written in one way only. -/
theorem eq_of_lower_eq {w s : String} (h : lower w = s) (hs : s.toList.all Char.isDigit = true) : w = s := by
  rw [all_eq_true] at hs
  have hlower : s.toList = w.toList.map Char.toLower := by rw [← h, lower, String.toList_ofList]
  have hsame : w.toList.map Char.toLower = w.toList := by
    refine (map_congr_left fun c hc => toLower_of_lt (val_lt_of_isDigit (isDigit_of_toLower (hs _ ?_)))).trans (map_id _)
    rw [hlower]
    exact mem_map_of_mem hc
  exact String.toList_injective (hlower.trans hsame).symm

/-! ## Reading -/

namespace FontParts

variable {f : FontParts} {v : FontValues} {text : String}

theorem add?_of_tell? (hsize : f.size = none) {g : FontParts} (h : f.tell? text = some g) : f.add? text = some g := by
  simp [add?, hsize, h]

/-- One of the parts in front of the size, which `set` puts in. -/
theorem foldlM_told? (text : String) (set : Option String → FontParts) (hsize : (set none).size = none)
    (h : text ≠ "normal" → (set none).tell? text = some (set (some text))) :
    (FontValues.told? text).toList.foldlM add? (set none) = some (set (FontValues.told? text)) := by
  rw [FontValues.told?]
  split
  · rfl
  · next hne => simp [add?_of_tell? hsize (h hne)]

theorem tell?_style (hstyle : f.style = none) (h : text ∈ fontStyles) :
    f.tell? text = some { f with style := some text } := by
  have hall : ∀ s ∈ fontStyles, lower s ≠ "normal" ∧ lower s ∉ fontWeights ∧ lower s ≠ "small-caps" ∧
      lower s ∈ fontStyles := by decide +kernel
  obtain ⟨hnormal, hweight, hcaps, hmem⟩ := hall text h
  simp [tell?, hnormal, hweight, hcaps, hmem, hstyle]

theorem tell?_weight (hweight : f.weight = none) (h : text ∈ fontWeights) :
    f.tell? text = some { f with weight := some text } := by
  have hall : ∀ s ∈ fontWeights, lower s ≠ "normal" ∧ lower s ∈ fontWeights := by decide +kernel
  obtain ⟨hnormal, hmem⟩ := hall text h
  simp [tell?, hnormal, hmem, hweight]

theorem tell?_variant (hvariant : f.variant = none) :
    f.tell? "small-caps" = some { f with variant := some "small-caps" } := by
  have hlower : lower "small-caps" = "small-caps" := by decide +kernel
  have hweight : "small-caps" ∉ fontWeights := by decide
  simp [tell?, hlower, hweight, hvariant]

/-- What starts like a number is a keyword only if it is a weight. -/
theorem mem_fontWeights_of_isFontKeyword {w : String} (hstart : startsSize w = true) (h : isFontKeyword w = true) :
    w ∈ fontWeights := by
  have hall : ∀ s ∈ fontKeywords, startsSize s = true → s ∈ fontWeights ∧ s.toList.all Char.isDigit = true := by
    decide +kernel
  obtain ⟨hweight, hdigits⟩ := hall _ (contains_iff_mem.mp h) (startsSize_lower hstart)
  rwa [eq_of_lower_eq rfl hdigits]

theorem startsSize_sizeWord (hv : v.Plain) : startsSize v.sizeWord = true := by
  have hstart := hv.size_start
  have hne : v.size.toList ≠ [] := fun hnil => by simp [startsSize, hnil] at hstart
  rw [FontValues.sizeWord]
  split
  · exact hstart
  · rwa [startsSize, String.toList_append, String.toList_append, append_assoc, head?_append_of_ne_nil _ hne]

theorem tell?_sizeWord (hv : v.Plain) : f.tell? v.sizeWord = none := by
  rw [FontValues.sizeWord]
  split
  · cases htold : f.tell? v.size with
    | none => rfl
    | some g => exact absurd (mem_fontWeights_of_isFontKeyword hv.size_start (tell?_eq_some htold).1) hv.size_not_weight
  · apply tell?_of_slash
    simp

theorem addSize_sizeWord (hv : v.Plain) (hheight : f.lineHeight = none) :
    f.addSize v.sizeWord = { f with size := some v.size, lineHeight := FontValues.told? v.lineHeight } := by
  have hslash := notMem_of_isSizeChar (c := '/') (by decide) hv.size_chars
  rw [FontValues.sizeWord, FontValues.told?]
  split
  · rcases cutSlash?_cases v.size with ⟨hcut, -⟩ | ⟨left, right, hchars, -⟩
    · rw [addSize, hcut]
      simp [hheight]
    · exact absurd (hchars ▸ mem_append_right left mem_cons_self) hslash
  · have hchars : (v.size ++ "/" ++ v.lineHeight).toList = v.size.toList ++ '/' :: v.lineHeight.toList := by
      simp [String.toList_append]
    have hne : v.lineHeight.isEmpty = false := by simpa using hv.lineHeight_ne
    rw [addSize, cutSlash?_of_eq hchars hslash]
    simp [hne]

theorem add?_sizeWord (hv : v.Plain) (hsize : f.size = none) (hheight : f.lineHeight = none) :
    f.add? v.sizeWord = some { f with size := some v.size, lineHeight := FontValues.told? v.lineHeight } := by
  have hlooks : looksLikeSize (lower v.sizeWord) = true := by
    rw [looksLikeSize, Bool.or_assoc, Bool.or_eq_true]
    exact .inl (startsSize_lower (startsSize_sizeWord hv))
  simp [add?, hsize, tell?_sizeWord hv, hlooks, addSize_sizeWord hv hheight]

/-- **The parts of a font are told apart** as they were put together. -/
theorem read?_front (hv : v.Plain) {name : String} (hname : startsWith name "/" = false) :
    read? (v.front ++ [name]) = some
      { style := FontValues.told? v.style, variant := FontValues.told? v.variant, weight := FontValues.told? v.weight,
        size := some v.size, lineHeight := FontValues.told? v.lineHeight, family := [name] } := by
  have hstyle := foldlM_told? v.style (fun t => { style := t }) rfl fun hne =>
    tell?_style rfl (hv.style.resolve_left hne)
  have hvariant := foldlM_told? v.variant (fun t => { style := FontValues.told? v.style, variant := t }) rfl fun hne => by
    rw [hv.variant.resolve_left hne]
    exact tell?_variant rfl
  have hweight := foldlM_told? v.weight
    (fun t => { style := FontValues.told? v.style, variant := FontValues.told? v.variant, weight := t }) rfl fun hne =>
      tell?_weight rfl (hv.weight.resolve_left hne)
  rw [read?, FontValues.front]
  simp only [foldlM_append, hstyle, hvariant, hweight, Option.bind_eq_bind, Option.bind_some, foldlM_cons,
    foldlM_nil, add?_sizeWord hv]
  simp [add?, addBehind, hname]

end FontParts

/-! ## The text of a font -/

section

variable {v : FontValues} {names : List String}

theorem getD_told? (text : String) : (FontValues.told? text).getD "normal" = text := by
  rw [FontValues.told?]
  split
  · next h => exact h.symm
  · rfl

theorem PlainWord.of_keyword {text : String} (h : text ∈ fontKeywords) : PlainWord text := by
  have hall : ∀ s ∈ fontKeywords, s ≠ "" ∧ s.toList.all Value.isMeasureChar = true := by decide +kernel
  exact .of_isMeasure ⟨(hall text h).1, all_eq_true.mp (hall text h).2⟩

theorem FontValues.Plain.size_ne (hv : v.Plain) : v.size ≠ "" := by
  intro hempty
  have hstart := hv.size_start
  rw [hempty] at hstart
  cases hstart

theorem plainWord_sizeWord (hv : v.Plain) : PlainWord v.sizeWord := by
  have hsize := fun c hc => isMeasureChar_of_isSizeChar (all_eq_true.mp hv.size_chars c hc)
  have hheight := fun c hc => isMeasureChar_of_isSizeChar (all_eq_true.mp hv.lineHeight_chars c hc)
  apply PlainWord.of_isMeasure
  rw [FontValues.sizeWord]
  split
  · exact ⟨hv.size_ne, hsize⟩
  · constructor
    · simp [hv.size_ne]
    · have hslash : Value.isMeasureChar '/' = true := by decide
      simp only [String.toList_append, forall_mem_append]
      exact ⟨⟨hsize, by simpa using hslash⟩, hheight⟩

theorem FontValues.Plain.mem_fontKeywords (hv : v.Plain) :
    v.style ∈ fontKeywords ∧ v.variant ∈ fontKeywords ∧ v.weight ∈ fontKeywords := by
  refine ⟨?_, ?_, ?_⟩
  · rcases hv.style with h | h <;> simp [fontKeywords, h]
  · rcases hv.variant with h | h <;> simp [fontKeywords, h]
  · rcases hv.weight with h | h <;> simp [fontKeywords, h]

/-- All words in front of the family can stand in the text of a font. -/
theorem plainWord_of_mem_front (hv : v.Plain) {w : String} (hw : w ∈ v.front) : PlainWord w := by
  have htold {text : String} (h : text ∈ fontKeywords) : ∀ w ∈ (FontValues.told? text).toList, PlainWord w := by
    rw [FontValues.told?]
    split
    · simp
    · simpa using PlainWord.of_keyword h
  have hall : ∀ w ∈ v.front, PlainWord w := by
    obtain ⟨hstyle, hvariant, hweight⟩ := hv.mem_fontKeywords
    simp only [FontValues.front, forall_mem_append]
    exact ⟨⟨⟨htold hstyle, htold hvariant⟩, htold hweight⟩, by simpa using plainWord_sizeWord hv⟩
  exact hall w hw

theorem front_ne_nil (v : FontValues) : v.front ≠ [] := by simp [FontValues.front]

/-- The text in front of the second family is split off. -/
theorem joinWith_front (v : FontValues) (name : String) (names : List String) :
    joinWith " " (v.front ++ [joinWith "," (name :: names)])
      = joinWith "," (joinWith " " (v.front ++ [name]) :: names) := by
  rw [joinWith_append " " (front_ne_nil v) (by simp), joinWith_append " " (front_ne_nil v) (by simp)]
  cases names with
  | nil => rfl
  | cons next names => simp [joinWith, String.append_assoc]

theorem foldl_families (name : String) (h : ∀ t ∈ names, Trimmed isBlank t.toList) :
    names.foldl (fun s t => s ++ "," ++ trimBlank t) name = joinWith "," (name :: names) := by
  induction names generalizing name with
  | nil => rfl
  | cons next names ih =>
    obtain ⟨hnext, hnames⟩ := forall_mem_cons.mp h
    rw [foldl_cons, trimBlank_of_trimmed hnext, ih _ hnames]
    cases names with
    | nil => rfl
    | cons third names => simp [joinWith, String.append_assoc]

theorem IsFamily.startsWith_slash {name : String} (h : IsFamily name) : startsWith name "/" = false := by
  rw [Bool.eq_false_iff]
  intro hstart
  have hmem : '/' ∈ name.toList := (List.isPrefixOf_iff_prefix.mp hstart).subset (by decide)
  cases h with
  | word hne hchars => exact absurd (all_eq_true.mp hchars _ hmem) (by decide)
  | quoted hchars =>
    simp only [String.toList_append, mem_append] at hmem
    rcases hmem with (hquote | hcontent) | hquote
    · exact absurd hquote (by decide)
    · exact absurd (all_eq_true.mp hchars _ hcontent) (by decide)
    · exact absurd hquote (by decide)

/-- **The text of a font is dissolved** to the values that it was put together of. -/
theorem dissolveFont?_joinWith (hv : v.Plain) (important : Bool) :
    dissolveFont? ⟨joinWith " " (v.front ++ [v.family]), important⟩ = some (v.declarations important) := by
  obtain ⟨names, hne, hnames, hfamily⟩ := hv.family
  obtain ⟨name, names, rfl⟩ := exists_cons_of_ne_nil hne
  obtain ⟨hname, hothers⟩ := forall_mem_cons.mp hnames
  have hwords : ∀ w ∈ v.front ++ [name], PlainWord w := by
    refine forall_mem_append.mpr ⟨fun w hw => plainWord_of_mem_front hv hw, ?_⟩
    simpa using hname.plainWord
  have hfamilies : ∀ t ∈ names, PlainWord t := fun t ht => (hothers t ht).plainWord
  have hblank : ' ' ∈ (joinWith " " (v.front ++ [name])).toList := by
    rw [joinWith_append " " (front_ne_nil v) (by simp)]
    simp
  have hparts : ∀ t ∈ joinWith " " (v.front ++ [name]) :: names, t.toList ≠ [] ∧ Trimmed isBlank t.toList := by
    refine forall_mem_cons.mpr ⟨⟨ne_nil_of_mem hblank, ?_⟩, fun t ht => ⟨(hfamilies t ht).ne_nil, ?_⟩⟩
    · exact trimmed_joinWith rfl fun w hw => ⟨(hwords w hw).ne_nil, (hwords w hw).trimmed⟩
    · exact (hfamilies t ht).trimmed
  have htext : joinWith " " (v.front ++ [v.family]) = joinWith "," (joinWith " " (v.front ++ [name]) :: names) := by
    rw [hfamily, joinWith_front]
  have htrim : trimBlank (joinWith " " (v.front ++ [v.family])) = joinWith " " (v.front ++ [v.family]) := by
    rw [htext, trimBlank_of_trimmed (trimmed_joinWith rfl hparts)]
  have hwhole : isWhole (joinWith " " (v.front ++ [v.family])) = false := by
    rw [htext, isWhole_of_notMem]
    · apply isWideKeyword_of_mem
      rw [toList_joinWith]
      exact (infix_intercalate (mem_map_of_mem mem_cons_self)).subset hblank
    · refine notMem_joinWith rfl (by decide) (forall_mem_cons.mpr ⟨?_, fun t ht => (hfamilies t ht).noCall⟩)
      exact notMem_joinWith rfl (by decide) fun w hw => (hwords w hw).noCall
  have hsplit : split ',' (joinWith " " (v.front ++ [v.family])) = joinWith " " (v.front ++ [name]) :: names := by
    rw [htext]
    have hwhole : ∀ t ∈ joinWith " " (v.front ++ [name]) :: names, Whole ',' .outside t.toList ∧ Closed t := by
      refine forall_mem_cons.mpr ⟨?_, fun t ht => ⟨(hfamilies t ht).noComma, (hfamilies t ht).closed⟩⟩
      exact whole_joinWith (by decide) fun w hw => ⟨(hwords w hw).noComma, (hwords w hw).closed⟩
    refine split_joinWith (by simp) (fun t ht => ⟨fun hempty => (hparts t ht).1 (by rw [hempty]; rfl), ?_⟩) fun t ht => ?_
    · exact (hwhole t ht).1
    · exact (hwhole t (dropLast_subset _ ht)).2
  have hsides : SideBySide (v.front ++ [name]) :=
    sideBySide_of_closed fun w hw => ⟨(hwords w hw).word, (hwords w hw).closed⟩
  have hfirst : firstFamily [name] = name := rfl
  simp only [dissolveFont?, htrim, hwhole, Bool.false_eq_true, if_false, hsplit, words_joinWith hsides,
    FontParts.read?_front hv hname.startsWith_slash, isEmpty_cons, hfirst,
    foldl_families name fun t ht => (hfamilies t ht).trimmed, getD_told?, ← hfamily]
  rfl

/-! ## Gathering -/

variable {d : Declarations} {important : Bool}

/-- None of the values stands for all properties or has a variable in it. -/
theorem isWhole_of_mem_declarations (hv : v.Plain) {x : Declaration} (hx : x ∈ v.declarations important) :
    isWhole x.2.text = false := by
  have hkeywords : ∀ s ∈ fontKeywords, isWhole s = false := by decide +kernel
  obtain ⟨hstyle, hvariant, hweight⟩ := hv.mem_fontKeywords
  have hcall {s : String} (h : s.toList.all isSizeChar = true) : '(' ∉ s.toList := notMem_of_isSizeChar (by decide) h
  have hsize : isWideKeyword v.size = false := by
    have hall : ∀ s ∈ ["inherit", "initial", "unset", "revert", "revert-layer"], startsSize s = false := by decide +kernel
    rw [Bool.eq_false_iff]
    intro hwide
    have hno := hall _ (contains_iff_mem.mp hwide)
    rw [startsSize_lower hv.size_start] at hno
    cases hno
  have hfamily : '(' ∉ v.family.toList := by
    obtain ⟨names, -, hnames, hfamily⟩ := hv.family
    rw [hfamily]
    exact notMem_joinWith rfl (by decide) fun name hname => (hnames name hname).plainWord.noCall
  simp only [FontValues.declarations, mem_cons, not_mem_nil, or_false] at hx
  rcases hx with rfl | rfl | rfl | rfl | rfl | rfl
  · exact hkeywords _ hstyle
  · exact hkeywords _ hvariant
  · exact hkeywords _ hweight
  · exact (isWhole_of_notMem (hcall hv.size_chars)).trans hsize
  · exact (isWhole_of_notMem (hcall hv.lineHeight_chars)).trans hv.lineHeight_own
  · exact (isWhole_of_notMem hfamily).trans hv.family_own

/-- The values are there, each for its longhand. -/
theorem get?_longhands (hd : d.entries.Perm (v.declarations important)) :
    d.get? "font-style" = some ⟨v.style, important⟩ ∧ d.get? "font-variant" = some ⟨v.variant, important⟩ ∧
      d.get? "font-weight" = some ⟨v.weight, important⟩ ∧ d.get? "font-size" = some ⟨v.size, important⟩ ∧
      d.get? "line-height" = some ⟨v.lineHeight, important⟩ ∧ d.get? "font-family" = some ⟨v.family, important⟩ := by
  simp only [get?_eq_some_iff, hd.mem_iff]
  simp [FontValues.declarations]

theorem FontValues.Plain.family_ne (hv : v.Plain) : v.family ≠ "" := by
  obtain ⟨names, hne, hnames, hfamily⟩ := hv.family
  obtain ⟨name, names, rfl⟩ := exists_cons_of_ne_nil hne
  obtain ⟨c, hc⟩ := exists_mem_of_ne_nil _ (hnames name mem_cons_self).plainWord.ne_nil
  have hmem : c ∈ v.family.toList := by
    rw [hfamily, toList_joinWith]
    exact (infix_intercalate (mem_map_of_mem mem_cons_self)).subset hc
  exact fun hempty => ne_nil_of_mem hmem (String.toList_eq_nil_iff.mpr hempty)

/-- The longhands give the words in front of the family, and the family. -/
theorem flatMap_fontWords (hv : v.Plain) (hd : d.entries.Perm (v.declarations important)) :
    fontLonghands.flatMap (fontWords d) = v.front ++ [v.family] := by
  obtain ⟨hstyle, hvariant, hweight, hsize, hheight, hfamily⟩ := get?_longhands hd
  have hstyleWords : fontWords d "font-style" = (FontValues.told? v.style).toList := by
    simp [fontWords, hstyle, FontValues.told?, apply_ite Option.toList]
  have hvariantWords : fontWords d "font-variant" = (FontValues.told? v.variant).toList := by
    rcases hv.variant with h | h <;> simp [fontWords, hvariant, FontValues.told?, h]
  have hweightWords : fontWords d "font-weight" = (FontValues.told? v.weight).toList := by
    simp [fontWords, hweight, FontValues.told?, apply_ite Option.toList]
  have hsizeWords : fontWords d "font-size" = [v.sizeWord] := by
    by_cases h : v.lineHeight = "normal" <;> simp [fontWords, hsize, hheight, FontValues.sizeWord, h, hv.size_ne]
  have hheightWords : fontWords d "line-height" = [] := by simp [fontWords, hheight]
  have hfamilyWords : fontWords d "font-family" = [v.family] := by simp [fontWords, hfamily, hv.family_ne]
  simp [fontLonghands, FontValues.front, hstyleWords, hvariantWords, hweightWords, hsizeWords, hheightWords, hfamilyWords]

theorem gatherFont?_eq (hv : v.Plain) (hd : d.entries.Perm (v.declarations important))
    (hfont : d.contains "font" = false) :
    gatherFont? d = some (gather d fontLonghands "font" ⟨joinWith " " (v.front ++ [v.family]), important⟩) := by
  obtain ⟨hstyle, hvariant, hweight, hsize, hheight, hfamily⟩ := get?_longhands hd
  have hpresent : fontLonghands.filterMap d.get? = (v.declarations important).map Prod.snd := by
    simp [fontLonghands, FontValues.declarations, hstyle, hvariant, hweight, hsize, hheight, hfamily]
  have hagreed : agreedImportance? ((v.declarations important).map Prod.snd) = some important := by
    simp [FontValues.declarations, agreedImportance?]
  have hwhole : ((v.declarations important).map Prod.snd).any (isWhole ·.text) = false := by
    rw [any_map, any_eq_false]
    intro x hx
    simp [isWhole_of_mem_declarations hv hx]
  have hvariantGone : keepsVariant d = false := by
    rcases hv.variant with h | h <;> simp [keepsVariant, hvariant, h]
  have hsizeThere : d.contains "font-size" = true := contains_iff_get?.mpr ⟨_, hsize⟩
  have hfamilyThere : d.contains "font-family" = true := contains_iff_get?.mpr ⟨_, hfamily⟩
  simp only [gatherFont?, hfont, hsizeThere, hfamilyThere, hpresent, hagreed, hwhole, hvariantGone, flatMap_fontWords hv hd]
  rfl

/-- **Dissolving undoes gathering for a font.** A block with the six longhands of a font in any order, all of them equally
important and with plain values, is left with one declaration of `font`, which is dissolved to the six longhands. -/
theorem dissolve_gathered_font (hv : v.Plain) (hd : d.entries.Perm (v.declarations important)) :
    ∃ text, (tidyBlock .font d).1.entries = [("font", ⟨text, important⟩)] ∧
      dissolveFont? ⟨text, important⟩ = some (v.declarations important) := by
  have hnames : ∀ x ∈ d.entries, x.1 ∈ fontLonghands := by
    intro x hx
    exact List.mem_map_of_mem (f := Prod.fst) (hd.mem_iff.mp hx)
  refine ⟨joinWith " " (v.front ++ [v.family]), ?_, dissolveFont?_joinWith hv important⟩
  have hfont : d.contains "font" = false := by
    rw [Bool.eq_false_iff]
    intro hcontains
    obtain ⟨x, hx, heq⟩ := List.mem_map.mp (contains_iff_mem.mp hcontains)
    exact absurd (heq ▸ hnames x hx) (by decide)
  have hungrouped : Ungrouped d := ungrouped_of_forall_mem (by decide +kernel) hnames
  have hdissolved : dissolveAll .font d = d := by
    have hbackground : ShorthandLevel.font.includes .background = false := rfl
    simp only [dissolveAll, hbackground, Bool.false_eq_true, if_false, dissolveWith, get?_eq_none_of_contains hfont,
      Option.bind_none, ite_self, hungrouped.dissolveBoxes]
  have hne : d.isEmpty = false := by
    rw [Declarations.isEmpty, List.isEmpty_eq_false_iff]
    intro hnil
    rw [hnil] at hd
    exact absurd hd.length_eq (by simp [FontValues.declarations])
  rw [fst_tidyBlock (by decide) hne hdissolved hungrouped]
  simp only [gatherWith, gatherFont?_eq hv hd hfont]
  exact entries_gather_of_forall_mem hnames

end

/-- A font of which most is told, with a size that starts like a weight. -/
def slantedFont : FontValues := ⟨"oblique", "normal", "700", "900.5px", "150%", "\"Gill Sans\",sans-serif"⟩

/-- The longhands of the font in another order. -/
def slantedBlock : Declarations where
  entries := (slantedFont.declarations true).reverse
  distinct := by decide

theorem dissolve_gathered_slantedFont :
    slantedFont.Plain ∧ slantedBlock.entries.Perm (slantedFont.declarations true) ∧
      (tidyBlock .font slantedBlock).1.entries
        = [("font", ⟨"oblique 700 900.5px/150% \"Gill Sans\",sans-serif", true⟩)] ∧
      dissolveFont? ⟨"oblique 700 900.5px/150% \"Gill Sans\",sans-serif", true⟩ = some (slantedFont.declarations true) := by
  have hplain : slantedFont.Plain := by
    refine ⟨?_, ?_, ?_, ?_, ?_, ?_, ?_, ?_, ?_, ⟨["\"Gill Sans\"", "sans-serif"], ?_, ?_, rfl⟩, ?_⟩
    case refine_11 =>
      refine List.forall_mem_cons.mpr ⟨@IsFamily.quoted "Gill Sans" rfl, ?_⟩
      exact List.forall_mem_cons.mpr ⟨.word (by decide) rfl, nofun⟩
    all_goals decide +kernel
  have hperm : slantedBlock.entries.Perm (slantedFont.declarations true) := List.reverse_perm _
  have htidied : (tidyBlock .font slantedBlock).1.entries
      = [("font", ⟨"oblique 700 900.5px/150% \"Gill Sans\",sans-serif", true⟩)] := by decide +kernel
  obtain ⟨text, htext, hdissolved⟩ := dissolve_gathered_font hplain hperm
  refine ⟨hplain, hperm, htidied, ?_⟩
  rw [htidied] at htext
  simp only [List.cons.injEq, Prod.mk.injEq, Value.mk.injEq] at htext
  rwa [htext.1.2.1]

end Stylesheet.Shorthand
