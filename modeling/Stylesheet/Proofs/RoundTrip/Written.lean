import Stylesheet.Proofs.Reader.Pieces

/-!
# Reading names and declarations as they are written

Space between rules and declarations is passed over. The name of a block is read up to its opening brace, and a
declaration up to the semicolon or the closing brace behind it. What is read is what was written, in both layouts,
where everything is made of words.
-/

namespace Stylesheet

open Text List

/-! ## Written declarations -/

namespace Value

/-- A text of words and commas. -/
def IsPlain (text : String) : Prop :=
  ∃ parts, parts ≠ [] ∧ (∀ part ∈ parts, IsWordOrComma part) ∧ text = joinParts parts

/-- The parts that a value is read as. -/
def written (v : Value) : List String := partsOf v.text ++ if v.important then ["!", "important"] else []

end Value

namespace Layout

/-- The mark of importance behind a value. -/
def mark (l : Layout) (v : Value) : String := if v.important then l.space ++ "!important" else ""

/-- A declaration without its end. -/
def entry (l : Layout) (e : Declaration) : String := e.1 ++ ":" ++ l.space ++ e.2.text ++ l.mark e.2

theorem declarations_spacious {l : Layout} (h : l.spacious = true) (depth : Nat) (ds : Declarations) :
    l.declarations depth ds
      = String.join (ds.entries.map fun e => l.indent depth ++ l.entry e ++ (";" ++ l.newline)) := by
  have hspace : l.space = " " := by rw [space, if_pos h]
  have hnewline : l.newline = "\n" := by rw [newline, if_pos h]
  rw [declarations, if_pos h]
  congr 1
  refine map_congr_left fun e _ => ?_
  have hcolon : ": " = ":" ++ " " := rfl
  have hend : ";\n" = ";" ++ "\n" := rfl
  have hmark : l.mark e.2 = if e.2.important then " !important" else "" := by
    rw [mark, hspace]
    rfl
  simp only [entry, hmark, hspace, hnewline, hcolon, hend, String.append_assoc]

theorem declarations_compact {l : Layout} (h : l.spacious = false) (depth : Nat) (ds : Declarations) :
    l.declarations depth ds = String.intercalate ";" (ds.entries.map l.entry) := by
  have hspace : l.space = "" := by rw [space, if_neg (by simp [h])]
  rw [declarations, if_neg (by simp [h])]
  congr 1
  refine map_congr_left fun e _ => ?_
  simp only [entry, mark, Value.render, hspace]
  split <;> simp [String.append_assoc]

end Layout

/-- An at-rule without a body that is made of words and not about the document as a whole. -/
structure LineAt.IsPlain (rule : LineAt) : Prop where
  name : IsWord rule.name
  other : lower rule.name ∉ Reader.headerRules
  value : ∃ words, (∀ w ∈ words, IsWord w) ∧ rule.value = joinWith " " words

/-- Reads a written declaration into a block. -/
def Frame.readEntry (o : Options) (f : Frame) (e : Declaration) : Frame :=
  f.declare? (Reader.declared o e.1 e.2.written)

/-! ## Space -/

namespace Reader

/-- Nothing but blanks and line ends. -/
def IsBlank (text : String) : Prop := ∀ c ∈ text.toList, c = ' ' ∨ c = '\n'

theorem isBlank_indent (l : Layout) (depth : Nat) : IsBlank (l.indent depth) := by
  unfold Layout.indent IsBlank
  split
  · rw [String.toList_ofList]
    exact fun c hc => .inl (eq_of_mem_replicate hc)
  · simp

theorem isBlank_newline (l : Layout) : IsBlank l.newline := by
  unfold Layout.newline IsBlank
  split <;> simp

section Written

variable {fragments words : List String} {name : String} {e : Declaration}
variable {o : Options} {l : Layout} {tail : List Char} {returns : List Mode} {frames : List Frame} {f g : Frame}
  {fs : List Frame} {selector : String}

/-- Space between rules or declarations is passed over. -/
theorem reads_blank (body : Keyword.AtBody) {text : String} (h : IsBlank text) :
    Reads o tail (.bare (bodyMode body) returns frames) text (.bare (bodyMode body) returns frames) := by
  obtain ⟨chars, rfl⟩ : ∃ chars, text = String.ofList chars := ⟨text.toList, String.ofList_toList.symm⟩
  unfold IsBlank at h
  rw [String.toList_ofList] at h
  induction chars generalizing tail with
  | nil => exact Reads.nil
  | cons c chars ih =>
    have hc := h c mem_cons_self
    have hrest : Reads o tail (.bare (bodyMode body) returns frames) (String.ofList chars)
        (.bare (bodyMode body) returns frames) := ih fun d hd => h d (mem_cons_of_mem _ hd)
    have hfirst (tail : List Char) : Reads o tail (.bare (bodyMode body) returns frames) (String.ofList [c])
        (.bare (bodyMode body) returns frames) := by
      cases body with
      | declarations => exact reads_property_blank hc
      | rules => exact reads_selector_blank hc
    have happend := (hfirst _).append hrest
    rwa [← String.ofList_append] at happend

/-! ## Names of selectors -/

theorem spaced_append_word {word : String} (h : IsWord word) (selector : String) :
    spaced (selector ++ word) = selector ++ word ++ " " := by
  obtain ⟨front, c, hlast⟩ := (eq_nil_or_concat' word.toList).resolve_left h.ne_empty
  have hc : isOrdinary c = true := h.ordinary c (by simp [hlast])
  have hlast? : last? (selector ++ word) = some c := by
    rw [last?, String.toList_append, hlast, ← append_assoc, getLast?_concat]
  have hcomma : c ≠ ',' := ne_of_isOrdinary hc (by decide)
  have hblank : c ≠ ' ' := ne_of_isOrdinary hc (by decide)
  rw [spaced, hlast?]
  simp only [beq_eq_false_iff_ne.mpr hcomma, beq_eq_false_iff_ne.mpr hblank, Bool.or_self, Bool.false_eq_true, if_false]
  rfl

/-- A phrase goes into the selector as it is. -/
theorem reads_phrase {p : String} (h : IsPhrase p) (hstop : Stops tail) (selector : String) :
    Reads o tail { mode := .selector, returns, frames, selector } p
      { mode := .selector, returns, frames, selector := selector ++ p } := by
  refine IsPhrase.induction (P := fun p => ∀ selector, Reads o tail { mode := .selector, returns, frames, selector } p
    { mode := .selector, returns, frames, selector := selector ++ p }) ?_ ?_ h selector
  · intro word hword selector
    exact reads_selector_word hword hstop
  · intro word rest hword _ ih selector
    have hblank : Reads o (rest.toList ++ tail)
        { mode := .selector, returns, frames, selector := selector ++ word } " "
        { mode := .selector, returns, frames, selector := selector ++ word ++ " " } := by
      rw [← spaced_append_word hword]
      exact reads_selector_blank (.inl rfl)
    have hfirst : Reads o (" ".toList ++ (rest.toList ++ tail)) { mode := .selector, returns, frames, selector } word
        { mode := .selector, returns, frames, selector := selector ++ word } :=
      reads_selector_word hword (Stops.of_head rfl (by decide))
    have hassoc : selector ++ word ++ " " ++ rest = selector ++ (word ++ " " ++ rest) := by
      simp only [String.append_assoc]
    rw [← hassoc]
    exact (hfirst.append hblank).append (ih _)

/-- Fragments go into the selector as they are. -/
theorem reads_fragments (h : ∀ p ∈ fragments, IsPhrase p) (hstop : Stops tail)
    {selector : String} (hselector : ∀ c ∈ selector.toList.head?, isSpace c = false) :
    Reads o tail { mode := .selector, returns, frames, selector } (joinWith "," fragments)
      { mode := .selector, returns, frames, selector := selector ++ joinWith "," fragments } := by
  induction fragments generalizing selector with
  | nil =>
    rw [joinWith, String.append_empty]
    exact Reads.nil
  | cons p fragments ih =>
    have hp := h p mem_cons_self
    cases fragments with
    | nil => exact reads_phrase hp hstop selector
    | cons q fragments =>
      obtain ⟨c, more, hc, hordinary⟩ := hp.head
      obtain ⟨front, d, hd, hordinary'⟩ := hp.last
      -- the comma trims the selector, which neither starts nor ends with space
      have hstart : ∀ x ∈ (selector ++ p).toList.head?, isSpace x = false := by
        intro x hx
        rw [String.toList_append] at hx
        cases hempty : selector.toList with
        | nil =>
          rw [hempty, hc] at hx
          rw [← Option.some.inj hx]
          exact isSpace_of_isOrdinary hordinary
        | cons y more =>
          rw [hempty] at hx
          exact hselector x (by rw [hempty]; exact hx)
      have htrim : trim (selector ++ p) = selector ++ p := by
        refine trim_eq_self hstart fun x hx => ?_
        rw [String.toList_append, hd, ← append_assoc, getLast?_concat] at hx
        rw [← Option.some.inj hx]
        exact isSpace_of_isOrdinary hordinary'
      have hcomma : Reads o ((joinWith "," (q :: fragments)).toList ++ tail)
          { mode := .selector, returns, frames, selector := selector ++ p } ","
          { mode := .selector, returns, frames, selector := selector ++ p ++ "," } := reads_selector_comma htrim
      have hstart' : ∀ x ∈ (selector ++ p ++ ",").toList.head?, isSpace x = false := by
        intro x hx
        have hne : (selector ++ p).toList ≠ [] := by simp [String.toList_append, hc]
        rw [String.toList_append, head?_append_of_ne_nil _ hne] at hx
        exact hstart x hx
      have hassoc : selector ++ p ++ "," ++ joinWith "," (q :: fragments)
          = selector ++ joinWith "," (p :: q :: fragments) := by
        simp only [joinWith, String.append_assoc]
      rw [← hassoc]
      exact ((reads_phrase hp (Stops.of_head rfl (by decide)) selector).append hcomma).append
        (ih (fun x hx => h x (mem_cons_of_mem _ hx)) hstart')

theorem trim_spaced (h : IsName fragments name) : trim (spaced name) = name := by
  by_cases hne : fragments = []
  · have hempty : name = "" := by
      rw [h.2, hne]
      rfl
    rw [hempty]
    decide
  obtain ⟨⟨c, more, hhead, hc⟩, front, d, hlast, hd⟩ := h.ends hne
  have hlast? : last? name = some d := by rw [last?, hlast, getLast?_concat]
  have hcomma : d ≠ ',' := ne_of_isOrdinary hd (by decide)
  have hblank : d ≠ ' ' := ne_of_isOrdinary hd (by decide)
  have hspaced : spaced name = name.push ' ' := by
    rw [spaced, hlast?]
    simp [hcomma, hblank]
  have hpos : isSpace ' ' = true := by decide
  have hneg : isSpace d = false := isSpace_of_isOrdinary hd
  have hstart : isSpace c = false := isSpace_of_isOrdinary hc
  have hdrop : (name.toList ++ [' ']).dropWhile isSpace = front ++ [d] ++ [' '] := by
    rw [hhead, cons_append, dropWhile_cons_of_neg (by simp [hstart]), ← cons_append, ← hhead, hlast]
  apply String.toList_injective
  rw [hspaced, trim, String.toList_ofList, String.toList_push, trimBoth, hdrop, reverse_append, reverse_append,
    reverse_singleton, reverse_singleton, singleton_append, dropWhile_cons_of_pos hpos, singleton_append,
    dropWhile_cons_of_neg (by simp [hneg]), hlast, reverse_cons, reverse_reverse]

/-- **The name of a selector** opens its block. -/
theorem reads_name (ho : o.Plain) (h : IsName fragments name) :
    Reads o tail (.bare .selector returns (f :: fs)) (name ++ l.space ++ "\x7b")
      (.bare .property (.selector :: returns) ((f.enter name).1 :: (f.enter name).2 :: fs)) := by
  have hname {tail : List Char} (hstop : Stops tail) :
      Reads o tail (.bare .selector returns (f :: fs)) name
        { mode := .selector, returns, frames := f :: fs, selector := name } := by
    have hread : Reads o tail (.bare .selector returns (f :: fs)) (joinWith "," fragments)
        { mode := .selector, returns, frames := f :: fs, selector := "" ++ joinWith "," fragments } :=
      reads_fragments h.1 hstop (by simp)
    rwa [String.empty_append, ← h.2] at hread
  rw [String.append_assoc]
  refine (hname ?_).append ?_
  · unfold Layout.space
    split
    · exact Stops.of_head rfl (by decide)
    · exact Stops.of_head rfl (by decide)
  · unfold Layout.space
    split
    · exact (reads_selector_blank (.inl rfl)).append (reads_selector_open ho (trim_spaced h))
    · exact reads_selector_open ho h.trim_eq

/-! ## At-rules -/

/-- Words are read as they are. -/
theorem reads_words (o : Options) (returns : List Mode) (frames : List Frame) (origin : Keyword.AtBody) (hwords : ∀ w ∈ words, IsWord w) (hne : words ≠ []) (hstop : Stops tail) :
    ∃ parts : Value.Parts, parts.all = words ∧
      Reads o tail { mode := .atRule, returns, frames, origin } (joinWith " " words)
        { mode := .atRule, returns, frames, origin, parts } := by
  have hchars := IsPhrase.chars ⟨words, hne, hwords, rfl⟩
  have hcomma : ',' ∉ (joinWith " " words).toList := by
    intro hmem
    rcases hchars ',' hmem with h | h
    · exact absurd h.1 (by decide)
    · exact absurd h (by decide)
  have hall : Value.partsOf (joinWith " " words) = words := by
    rw [← Value.joinParts_eq_joinWith hwords]
    exact Value.partsOf_joinParts fun w hw => .inl (hwords w hw)
  refine ⟨Value.Parts.scan {} (joinWith " " words).toList, hall, ?_⟩
  have hread : Reads o tail { mode := .atRule, returns, frames, origin } (String.ofList (joinWith " " words).toList)
      { mode := .atRule, returns, frames, origin, parts := Value.Parts.scan {} (joinWith " " words).toList } :=
    reads_parts (fun c hc => (hchars c hc).imp_right .inl) hstop (.inr ⟨rfl, hcomma⟩)
  rwa [String.ofList_toList] at hread

/-- **The words of an at-rule** with a known keyword open its block. -/
theorem reads_keyword {inner : Keyword.AtBody} (body : Keyword.AtBody)
    (hwords : ∀ w ∈ words, IsWord w) (hkeyword : words.head?.bind Keyword.atBody? = some inner) :
    Reads o tail (.bare (bodyMode body) returns (f :: fs)) ("@" ++ joinWith " " words ++ l.space ++ "\x7b")
      (.bare (bodyMode inner) (bodyMode body :: returns) ({ name := "@" ++ joinWith " " words, kind := .atBlock } :: f :: fs)) := by
  have hne : words ≠ [] := by
    rintro rfl
    simp at hkeyword
  have hstop : Stops ((l.space ++ "\x7b").toList ++ tail) := by
    unfold Layout.space
    split
    · exact Stops.of_head rfl (by decide)
    · exact Stops.of_head rfl (by decide)
  obtain ⟨parts, hparts, hread⟩ := reads_words o returns (f :: fs) body hwords hne hstop
  have hopen {done : Value.Parts} (hdone : done.all = words) :
      Reads o tail { mode := .atRule, returns, frames := f :: fs, origin := body, parts := done } "\x7b"
        (.bare (bodyMode inner) (bodyMode body :: returns) ({ name := "@" ++ joinWith " " words, kind := .atBlock } :: f :: fs)) := by
    rw [← Value.joinParts_eq_joinWith hwords, ← hdone]
    exact reads_atRule_open (by rw [hdone, hkeyword])
  rw [String.append_assoc]
  refine ((reads_at body).append hread).append ?_
  unfold Layout.space
  split
  · refine (reads_part_blank (.inr rfl) ?_).append (hopen ?_)
    · exact append_ne_nil_of_left_ne_nil (by decide) _
    · rw [Value.Parts.all_of_empty, hparts]
  · rw [String.empty_append]
    exact hopen hparts

theorem render_lineAt (hwords : ∀ w ∈ words, IsWord w) :
    LineAt.render ⟨name, joinWith " " words⟩ = "@" ++ joinWith " " (name :: words) ++ ";" := by
  cases words with
  | nil => rfl
  | cons w words =>
    have hne : (joinWith " " (w :: words)).isEmpty = false := by
      have hphrase := IsPhrase.ne_empty ⟨w :: words, by simp, hwords, rfl⟩
      simpa using hphrase
    simp only [LineAt.render, hne, Bool.false_eq_true, if_false, joinWith, String.append_assoc]

/-- **An at-rule without a body** goes to the end of its block. -/
theorem reads_lineAt {rule : LineAt} (h : rule.IsPlain) (body : Keyword.AtBody) :
    Reads o tail (.bare (bodyMode body) returns (f :: fs)) rule.render
      (.bare (bodyMode body) returns (f.push (.lineAt rule) :: fs)) := by
  obtain ⟨name, value⟩ := rule
  obtain ⟨hname, hother, words, hwords, rfl⟩ := h
  have hall : ∀ w ∈ name :: words, IsWord w := by
    intro w hw
    rcases mem_cons.mp hw with rfl | hw
    · exact hname
    · exact hwords w hw
  have hstop : Stops (";".toList ++ tail) := Stops.of_head rfl (by decide)
  obtain ⟨parts, hparts, hread⟩ := reads_words o returns (f :: fs) body hall (by simp) hstop
  rw [render_lineAt hwords]
  refine ((reads_at body).append hread).append ?_
  rw [← Value.joinParts_eq_joinWith hwords]
  exact reads_atRule_semicolon hparts hother

/-! ## Declarations -/

/-- A declaration made of words. -/
structure IsPlainEntry (e : Declaration) : Prop where
  property : IsWord e.1
  value : Value.IsPlain e.2.text

/-- The mark of importance is read as two parts. -/
theorem reads_mark (o : Options) (l : Layout) (returns : List Mode) (frames : List Frame) (v : Value)
    (hstop : Stops tail) (property : String) (parts : Value.Parts) :
    ∃ done : Value.Parts, done.all = parts.all ++ (if v.important then ["!", "important"] else []) ∧
      Reads o tail { mode := .value, returns, frames, property, parts } (l.mark v)
        { mode := .value, returns, frames, property, parts := done } := by
  unfold Layout.mark
  split
  · have himportant : IsWord "important" := by decide
    have hword (done : List String) : Reads o tail { mode := .value, returns, frames, property, parts := { done } }
        "important" { mode := .value, returns, frames, property, parts := ⟨"" ++ "important", done⟩ } :=
      reads_part_word (.inl rfl) himportant hstop.exists_mem
    have hmark (tail : List Char) (htail : tail ≠ []) (parts : Value.Parts) :
        Reads o tail { mode := .value, returns, frames, property, parts } "!"
          { mode := .value, returns, frames, property, parts := { done := parts.all ++ ["!"] } } :=
      reads_value_mark (.inr rfl) htail
    have hne : "important".toList ++ tail ≠ [] := append_ne_nil_of_right_ne_nil _ hstop.ne_nil
    refine ⟨⟨"important", parts.all ++ ["!"]⟩, ?_, ?_⟩
    · rw [Value.Parts.all_of_word himportant, append_assoc]
      rfl
    · unfold Layout.space
      split
      · have hblank : Reads o ("!important".toList ++ tail) { mode := .value, returns, frames, property, parts } " "
            { mode := .value, returns, frames, property, parts := { done := parts.all } } :=
          reads_part_blank (.inl rfl) (append_ne_nil_of_right_ne_nil _ hstop.ne_nil)
        have hread := (hmark _ hne { done := parts.all }).append (hword _)
        rw [Value.Parts.all_of_empty] at hread
        exact hblank.append hread
      · exact (hmark _ hne parts).append (hword _)
  · exact ⟨parts, by simp, Reads.nil⟩

theorem stops_mark (l : Layout) (v : Value) (hstop : Stops tail) : Stops ((l.mark v).toList ++ tail) := by
  unfold Layout.mark Layout.space
  split
  · split
    · exact Stops.of_head rfl (by decide)
    · exact Stops.of_head rfl (by decide)
  · exact hstop

/-- A declaration is read up to its end. -/
theorem reads_entry (o : Options) (l : Layout) (returns : List Mode) (frames : List Frame)
    (he : IsPlainEntry e) (hstop : Stops tail) :
    ∃ parts : Value.Parts, parts.all = e.2.written ∧
      Reads o tail (.bare .property returns frames) (l.entry e)
        { mode := .value, returns := .property :: returns, frames, property := e.1, parts } := by
  obtain ⟨hproperty, parts, -, hparts, htext⟩ := he
  have hchars := Value.chars_joinParts hparts
  rw [← htext] at hchars
  obtain ⟨done, hdone, hmark⟩ :=
    reads_mark o l (.property :: returns) frames e.2 hstop e.1 (Value.Parts.scan {} e.2.text.toList)
  have hstops := stops_mark l e.2 hstop
  have hword {tail : List Char} (hstop : Stops tail) : Reads o tail (.bare .property returns frames) e.1
      { mode := .property, returns, frames, property := e.1 } := by
    have hread : Reads o tail (.bare .property returns frames) e.1
        { mode := .property, returns, frames, property := "" ++ e.1 } := reads_property_word hproperty hstop
    rwa [String.empty_append] at hread
  have hspace {tail : List Char} (htail : tail ≠ []) :
      Reads o tail { mode := .value, returns := .property :: returns, frames, property := e.1 } l.space
        { mode := .value, returns := .property :: returns, frames, property := e.1 } := by
    unfold Layout.space
    split
    · exact reads_part_blank (.inl rfl) htail
    · exact Reads.nil
  have hvalue : Reads o ((l.mark e.2).toList ++ tail)
      { mode := .value, returns := .property :: returns, frames, property := e.1 } (String.ofList e.2.text.toList)
      { mode := .value, returns := .property :: returns, frames, property := e.1
        parts := Value.Parts.scan {} e.2.text.toList } := reads_parts hchars hstops (.inl rfl)
  rw [String.ofList_toList] at hvalue
  refine ⟨done, hdone, ?_⟩
  refine ((((hword ?_).append (reads_property_colon hproperty)).append (hspace ?_)).append hvalue).append hmark
  · exact Stops.of_head rfl (by decide)
  · exact append_ne_nil_of_right_ne_nil _ hstops.ne_nil

/-- A declaration and a semicolon. -/
theorem reads_entry_semicolon (he : IsPlainEntry e) (htail : tail ≠ []) :
    Reads o tail (.bare .property returns (f :: g :: fs)) (l.entry e ++ ";")
      (.bare .property returns (f.readEntry o e :: g :: fs)) := by
  have hstop : Stops (";".toList ++ tail) := Stops.of_head rfl (by decide)
  obtain ⟨parts, hparts, hread⟩ := reads_entry o l returns (f :: g :: fs) he hstop
  refine hread.append ?_
  rw [Frame.readEntry, ← hparts]
  exact reads_value_semicolon htail

/-- The last declaration of a block and the end of the block. -/
theorem reads_entry_close {back : Mode} (hback : back = .selector ∨ back = .property)
    (he : IsPlainEntry e) (htail : tail ≠ []) :
    Reads o tail (.bare .property (back :: returns) (f :: g :: fs)) (l.entry e ++ "\x7d")
      (.bare back returns ((f.readEntry o e).close g :: fs)) := by
  have hstop : Stops ("\x7d".toList ++ tail) := Stops.of_head rfl (by decide)
  obtain ⟨parts, hparts, hread⟩ := reads_entry o l (back :: returns) (f :: g :: fs) he hstop
  refine hread.append ?_
  rw [Frame.readEntry, ← hparts]
  exact reads_value_close hback htail

/-- **One declaration a line.** -/
theorem reads_lines (depth : Nat) {entries : List Declaration} (h : ∀ e ∈ entries, IsPlainEntry e)
    (htail : tail ≠ []) :
    Reads o tail (.bare .property returns (f :: g :: fs))
      (String.join (entries.map fun e => l.indent depth ++ l.entry e ++ (";" ++ l.newline)))
      (.bare .property returns (entries.foldl (Frame.readEntry o) f :: g :: fs)) := by
  induction entries generalizing f with
  | nil => exact Reads.nil
  | cons e entries ih =>
    have hrest := ih (f := f.readEntry o e) fun x hx => h x (mem_cons_of_mem _ hx)
    have hindent {tail : List Char} : Reads o tail (.bare .property returns (f :: g :: fs))
        (l.indent depth) (.bare .property returns (f :: g :: fs)) :=
      reads_blank .declarations (isBlank_indent l depth)
    have hnewline {tail : List Char} :
        Reads o tail (.bare .property returns (f.readEntry o e :: g :: fs)) l.newline
          (.bare .property returns (f.readEntry o e :: g :: fs)) :=
      reads_blank .declarations (isBlank_newline l)
    have hassoc : l.indent depth ++ l.entry e ++ (";" ++ l.newline)
        = l.indent depth ++ (l.entry e ++ ";") ++ l.newline := by
      simp only [String.append_assoc]
    rw [map_cons, String.join_cons, foldl_cons, hassoc]
    refine ((hindent.append (reads_entry_semicolon (h e mem_cons_self) ?_)).append hnewline).append hrest
    exact append_ne_nil_of_right_ne_nil _ (append_ne_nil_of_right_ne_nil _ htail)

/-- **Declarations without space** and the end of their block. -/
theorem reads_entries_close {back : Mode} (hback : back = .selector ∨ back = .property)
    {entries : List Declaration} (h : ∀ e ∈ entries, IsPlainEntry e) (hne : entries ≠ []) (htail : tail ≠ []) :
    Reads o tail (.bare .property (back :: returns) (f :: g :: fs))
      (String.intercalate ";" (entries.map l.entry) ++ "\x7d")
      (.bare back returns ((entries.foldl (Frame.readEntry o) f).close g :: fs)) := by
  induction entries generalizing f with
  | nil => exact absurd rfl hne
  | cons e entries ih =>
    have he := h e mem_cons_self
    cases entries with
    | nil =>
      rw [map_singleton, String.intercalate_singleton, foldl_cons, foldl_nil]
      exact reads_entry_close hback he htail
    | cons e' entries =>
      have hrest := ih (f := f.readEntry o e) (fun x hx => h x (mem_cons_of_mem _ hx)) (by simp)
      rw [map_cons, map_cons, String.intercalate_cons_cons, String.append_assoc, ← map_cons, foldl_cons]
      refine (reads_entry_semicolon he ?_).append hrest
      exact append_ne_nil_of_right_ne_nil _ htail

end Written

end Reader

end Stylesheet
