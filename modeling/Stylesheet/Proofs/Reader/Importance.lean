import Stylesheet.Proofs.Reader.Discipline
import Stylesheet.Proofs.Text.Cursor
import Stylesheet.Proofs.Text.Escape
import Stylesheet.Proofs.Value.Importance

/-!
# Where exclamation marks come from

Where the layout of the source is kept, an exclamation mark gets into a word of a value in three ways only: in a
string, which ends with a quote; among the arguments of a function, which end with a parenthesis; and behind a
backslash. Every other one is a part of its own. So at every place of every text the parts of a value are such that
its text shows whether it is important, but for a backslash in front of the mark (`after_candid`).
-/

namespace Stylesheet.Reader

open State Text List
open Value (IsPart MarkEscaped Honest)

variable {part : String} {tail : List Char}
variable {o : Options}

/-! ## The value of a declaration -/

theorem isPart_of_last {front : List Char} {c : Char} (h : part.toList = front ++ [c])
    (halpha : c.isAlpha = false) (hspace : isSpace c = false) (hmark : c ≠ '!') : IsPart part := by
  refine .inr (.inr ⟨?_, ?_⟩)
  · rintro rfl
    simp at h
  · rw [h]
    exact .concat front halpha hspace hmark

/-- Where the source is kept, a part stays as it is or becomes a function. -/
theorem tidyPart_preserved (ho : o.preserveCss = true) (property : String) (line : Nat) (part : String) :
    (tidyPart o property line part).1 = part ∨
      ∃ front, (tidyPart o property line part).1.toList = front ++ [')'] := by
  unfold tidyPart
  split
  · exact .inl rfl
  · simp only
    cases hformat : quoteFormat? part with
    | none => exact .inl rfl
    | some text =>
      right
      unfold quoteFormat? at hformat
      split at hformat
      · split at hformat
        · cases hformat
        · next name _ _ =>
          cases hformat
          refine ⟨"format(\"".toList ++ name.toList ++ ['"'], ?_⟩
          simp [String.toList_append]
      · cases hformat

theorem isPart_tidyPart (ho : o.preserveCss = true) (property : String) (line : Nat)
    (h : IsPart part) : IsPart (tidyPart o property line part).1 := by
  rcases tidyPart_preserved ho property line part with heq | ⟨front, heq⟩
  · rwa [heq]
  · exact isPart_of_last heq (by decide) (by decide) (by decide)

/-- A part that becomes a word without a parenthesis was that word before. -/
theorem eq_of_tidyPart_eq (ho : o.preserveCss = true) {property : String} {line : Nat} {word : String}
    (h : (tidyPart o property line part).1 = word) (hword : word.toList.getLast? ≠ some ')') :
    part = word := by
  rcases tidyPart_preserved ho property line part with heq | ⟨front, heq⟩
  · exact heq.symm.trans h
  · rw [h] at heq
    rw [heq, getLast?_concat] at hword
    exact absurd rfl hword

/-- Parts that are not cut do not end with the mark of importance. -/
theorem cutImportant_eq_false {parts : List String} (h : (cutImportant parts).2 = false) :
    (cutImportant parts).1 = parts ∧ ¬ ∃ front, parts = front ++ ["!", "important"] := by
  constructor
  · unfold cutImportant at h ⊢
    split
    · next word mark rest hrev =>
      simp only [hrev] at h
      split
      · next hcut => rw [if_pos hcut] at h; cases h
      · rfl
    · rfl
  · rintro ⟨front, rfl⟩
    have hletters : sameLetters "important" "important" = true := by simp [sameLetters]
    simp [cutImportant, hletters] at h

/-- The value of a declaration shows whether it is important. -/
theorem honest_cutImportant (ho : o.preserveCss = true) {parts : List String} (h : ∀ part ∈ parts, IsPart part)
    (property : String) (line : Nat) :
    Honest ⟨Value.joinParts ((cutImportant parts).1.map fun part =>
      (tidyPart o property line part).1), (cutImportant parts).2⟩ := by
  cases himportant : (cutImportant parts).2 with
  | true => exact fun hfalse => by cases hfalse
  | false =>
    obtain ⟨hparts, hmark⟩ := cutImportant_eq_false himportant
    rw [hparts]
    refine Value.honest_joinParts ?_ ?_
    · intro tidied htidied
      obtain ⟨part, hpart, rfl⟩ := mem_map.mp htidied
      exact isPart_tidyPart ho property line (h part hpart)
    · rintro ⟨front, hfront⟩
      obtain ⟨words, marks, rfl, -, hmarks⟩ := map_eq_append_iff.mp hfront
      obtain ⟨mark, marks, rfl, hmark', hmarks⟩ := map_eq_cons_iff.mp hmarks
      obtain ⟨word, marks, rfl, hword, hmarks⟩ := map_eq_cons_iff.mp hmarks
      rw [map_eq_nil_iff.mp hmarks, eq_of_tidyPart_eq ho hmark' (by decide),
        eq_of_tidyPart_eq ho hword (by decide)] at hmark
      exact hmark ⟨words, rfl⟩

/-- The declarations that are made have a text, and show whether they are important. -/
theorem honest_declaration? (ho : o.preserveCss = true) {s : State}
    (h : s.property ≠ "" → ∀ part ∈ s.flushPart.parts, IsPart part) {d : Declaration}
    (hd : s.declaration? o = some d) : d.2.text ≠ "" ∧ Honest d.2 := by
  obtain ⟨hname, hproperty, -, hvalue, htext⟩ := of_declaration? hd
  refine ⟨htext, ?_⟩
  rw [hvalue]
  refine honest_cutImportant ho (h fun hempty => hproperty ?_) _ _
  rw [hname, hempty]
  decide

/-! ## The invariant -/

/-- The parts of a value are parts, the word that is being read keeps its exclamation marks behind backslashes, and a
character that is escaped in a value has its backslash at the end of that word. -/
structure Candid (r : Reader) : Prop where
  parts : r.state.property ≠ "" → ∀ part ∈ r.state.parts, IsPart part
  part : r.state.mode = .value → MarkEscaped r.state.part.toList
  backslash : r.state.mode = .value → r.cursor.escaped = true →
    r.cursor.rest.head?.any isTokenChar = true → r.cursor.rest.drop 1 ≠ [] →
      r.state.part.toList.getLast? = some '\\'

namespace Candid

variable {k : Text.Cursor} {s : State}

/-- Outside of values. -/
theorem of_outside (hvalue : s.mode ≠ .value) (hparts : s.property ≠ "" → ∀ part ∈ s.parts, IsPart part) :
    Candid ⟨k, s⟩ :=
  ⟨hparts, fun h => absurd h hvalue, fun h => absurd h hvalue⟩

/-- Behind a character that is no backslash. -/
theorem of_unescaped (hescaped : k.escaped = false) (hparts : s.property ≠ "" → ∀ part ∈ s.parts, IsPart part)
    (hpart : s.mode = .value → MarkEscaped s.part.toList) : Candid ⟨k, s⟩ :=
  ⟨hparts, hpart, fun _ h => absurd h (by simp [hescaped])⟩

/-- Finishing the word that is being read. -/
theorem isPart_flushPart (hproperty : s.property ≠ "" → ∀ part ∈ s.parts, IsPart part)
    (hpart : MarkEscaped s.part.toList) (hne : s.property ≠ "") : ∀ part ∈ s.flushPart.parts, IsPart part := by
  intro part hmem
  unfold flushPart at hmem
  simp only at hmem
  split at hmem
  · exact hproperty hne part hmem
  · next hempty =>
    rcases mem_append.mp hmem with hmem | hmem
    · exact hproperty hne part hmem
    · rw [mem_singleton.mp hmem]
      exact .inr (.inr ⟨by simpa using hempty, hpart.trim⟩)

end Candid

/-- The mode a block leads back to is that of names. -/
theorem Returnable.head {marks : List Mode} (h : Returnable marks) :
    marks.head?.getD .selector = .selector ∨ marks.head?.getD .selector = .property := by
  cases marks with
  | nil => exact .inl rfl
  | cons mark marks =>
    rcases h.1 with h | h
    · exact .inl h
    · exact .inr h.1

/-! ## Cursors behind what was read -/

/-- Behind a run, or a token that was escaped, nothing is escaped. -/
theorem escaped_readRun {k : Text.Cursor} {c : Char} (hrest : k.rest = c :: tail)
    (htoken : k.atToken = false) (hspace : isSpace c = false) :
    (k.advance ((readRun k c).2 + 1)).escaped = false := by
  unfold readRun
  simp only
  split
  · next hrun =>
    -- the character is no part of a run, so it is a token, and an escaped one
    have hordinary : isOrdinary c = false := by
      rw [Text.Cursor.ordinaryRun, hrest] at hrun
      by_contra hc
      rw [takeWhile_cons_of_pos (by simpa using hc)] at hrun
      cases hrun
    have hescaped : k.escaped = true := by
      simp only [isOrdinary, hspace, Bool.not_false, Bool.and_true, Bool.not_eq_false'] at hordinary
      simpa [Text.Cursor.atToken, hrest, hordinary] using htoken
    rw [Text.Cursor.escaped_advance_one hrest, hescaped]
    simp
  · next hrun =>
    have hne : k.ordinaryRun ≠ [] := by simpa using hrun
    have hlength : k.ordinaryRun.length - 1 + 1 = k.ordinaryRun.length := by
      have := length_pos_of_ne_nil hne
      omega
    have htake : k.rest.take k.ordinaryRun.length = k.ordinaryRun :=
      (prefix_iff_eq_take.mp (List.takeWhile_prefix _)).symm
    obtain ⟨run, d, hd⟩ := (eq_nil_or_concat' k.ordinaryRun).resolve_left hne
    have hordinary : isOrdinary d = true := by
      have hmem : d ∈ k.ordinaryRun := by simp [hd]
      exact mem_takeWhile_imp hmem
    refine Text.Cursor.escaped_advance (c := d) ?_ ?_
    · rw [hlength, htake, hd, getLast?_concat]
    · rintro rfl
      exact absurd hordinary (by decide)

/-- What a run adds to a word, unless it is an exclamation mark. -/
theorem mark_notMem_readRun {k : Text.Cursor} {c : Char} (hc : c ≠ '!') : '!' ∉ (readRun k c).1.toList := by
  unfold readRun
  simp only
  split
  · simpa using Ne.symm hc
  · rw [String.toList_ofList]
    intro hmem
    exact absurd (mem_takeWhile_imp hmem) (by decide)

/-- An exclamation mark is read alone. -/
theorem readRun_mark {k : Text.Cursor} (hrest : k.rest = '!' :: tail) : (readRun k '!').1 = "!" := by
  have hrun : k.ordinaryRun = [] := by
    rw [Text.Cursor.ordinaryRun, hrest, takeWhile_cons_of_neg (by decide)]
  simp [readRun, hrun]

/-- The text in front of the end of a comment. -/
theorem eq_of_cutComment? {body text : List Char} (h : cutComment? body = some text) :
    ∃ more, body = text ++ '*' :: '/' :: more := by
  fun_induction cutComment? body generalizing text with
  | case1 => cases h
  | case2 more =>
    cases h
    exact ⟨more, rfl⟩
  | case3 c body _ ih =>
    obtain ⟨inner, hinner, rfl⟩ := Option.map_eq_some_iff.mp h
    obtain ⟨more, hmore⟩ := ih hinner
    exact ⟨more, by rw [hmore]; rfl⟩

/-- What is read of an escape. -/
theorem readEscape_of_cons {k : Text.Cursor} {s : State} {c : Char} {after : List Char} (hrest : k.rest = c :: after) :
    (s.readEscape o k).1 = (Text.Escape.read o.removeBackslash after).text ∧
      (s.readEscape o k).2.2 = Text.Escape.takenLength after := by
  rw [← Text.Escape.length_read o.removeBackslash after, readEscape, hrest]
  exact ⟨rfl, rfl⟩

/-- Behind the digits or the space of an escape nothing is escaped. -/
theorem escaped_takenLength {k : Text.Cursor} {c : Char} {after : List Char} (hrest : k.rest = c :: after)
    (htaken : Text.Escape.takenLength after ≠ 0) : (k.advance (Text.Escape.takenLength after + 1)).escaped = false := by
  have hne : after.take (Text.Escape.takenLength after) ≠ [] := by
    have hle := Text.Escape.takenLength_le after
    rw [← length_pos_iff, length_take]
    omega
  obtain ⟨front, d, hd⟩ := (eq_nil_or_concat' _).resolve_left hne
  have hlast : (after.take (Text.Escape.takenLength after)).getLast? = some d := by rw [hd, getLast?_concat]
  refine Text.Cursor.escaped_advance (c := d) ?_ ?_
  · rw [hrest, take_succ_cons, getLast?_cons_of_ne_nil hne, hlast]
  · rintro rfl
    rcases Text.Escape.getLast?_take_takenLength after '\\' hlast with h | h <;> exact absurd h (by decide)

/-- Behind a comment nothing is escaped, unless the text ends there. -/
theorem escaped_readComment {k : Text.Cursor} (s : State) (hcomment : atComment k = true) :
    (k.advance ((s.readComment o k).2 + 1)).escaped = false ∨
      (k.advance ((s.readComment o k).2 + 1)).rest.drop 1 = [] := by
  obtain ⟨body, hrest⟩ : ∃ body, k.rest = '/' :: '*' :: body := by
    have htake : k.rest.take 2 = ['/', '*'] := by simpa [atComment] using hcomment
    exact ⟨k.rest.drop 2, (take_append_drop 2 k.rest).symm.trans (by rw [htake]; rfl)⟩
  unfold readComment
  simp only [hrest, drop_succ_cons, drop_zero]
  cases hcut : cutComment? body with
  | some text =>
    left
    obtain ⟨more, hmore⟩ := eq_of_cutComment? hcut
    have htake : k.rest.take (text.length + 3 + 1) = '/' :: '*' :: text ++ ['*'] ++ ['/'] := by
      rw [hrest, hmore]
      simp only [take_succ_cons]
      rw [take_length_add_append]
      simp
    refine Text.Cursor.escaped_advance (c := '/') ?_ (by decide)
    rw [htake, getLast?_concat]
  | none =>
    right
    simp only [Text.Cursor.advance, hrest, drop_succ_cons, length_dropLast]
    rw [drop_drop]
    apply drop_of_length_le
    omega

/-- Behind an at-rule without a body no parts are left. -/
theorem endAtRule_candid (s : State) {k : Text.Cursor} : Candid ⟨k, s.endAtRule o⟩ := by
  obtain ⟨document, new, -, heq⟩ := endAtRule_eq o s
  rw [heq]
  refine .of_outside ?_ (by simp)
  cases s.origin <;> simp [bodyMode]

section Modes

variable {s : State} {atSign base : Mode} {marks pending : List Mode} {k : Text.Cursor} {c : Char}
  {tail : List Char}

theorem inSelector_candid (h : Steady s atSign marks .selector []) (hmode : s.mode = .selector) :
    Candid ⟨k.advance ((s.inSelector o k c).2 + 1), (s.inSelector o k c).1⟩ := by
  obtain ⟨hproperty, hpart, hparts⟩ := h.buffers
  have hvalue : s.mode ≠ .value := by simp [hmode]
  -- there is no property, so nothing is said about parts
  have hnone {p : String → Prop} : s.property ≠ "" → ∀ part ∈ s.parts, p part := fun hne => absurd hproperty hne
  apply inSelector_cases (P := fun t n => Candid ⟨k.advance (n + 1), t⟩)
  case space =>
    intro _ _
    obtain ⟨selector, heq⟩ := spaceSelector_eq s
    rw [heq]
    exact .of_outside hvalue hnone
  case comment =>
    intro _ _
    obtain ⟨line, document, heq⟩ := readComment_eq o s k
    rw [heq]
    exact .of_outside hvalue hnone
  case brace =>
    intro _ _
    obtain ⟨id, document, heq⟩ := openSelector_eq o s
    rw [heq]
    exact .of_outside (by simp) hnone
  case atSign => exact fun _ _ _ => .of_outside (by simp) hnone
  case quote => exact fun _ _ => .of_outside (by simp [beginString, pushMode]) hnone
  case close =>
    intro _ _
    obtain ⟨document, heq⟩ := closeBlock_eq o s
    rw [heq, popMode_eq]
    have hback := h.returnable.head
    rw [← nil_append marks, ← h.returns] at hback
    refine .of_outside ?_ hnone
    rcases hback with hback | hback <;> simp [hback]
  case escape =>
    intro _ _ text t n hescape
    obtain ⟨line, new, -, rfl⟩ := readEscape_eq hescape
    exact .of_outside hvalue hnone
  all_goals intros; exact .of_outside hvalue hnone

theorem inProperty_candid (h : Steady s atSign marks .property []) (hmode : s.mode = .property)
    (hrest : k.rest = c :: tail) :
    Candid ⟨k.advance ((s.inProperty o k c).2 + 1), (s.inProperty o k c).1⟩ := by
  obtain ⟨hselector, hpart, hparts, hblocks⟩ := h.buffers
  have hvalue : s.mode ≠ .value := by simp [hmode]
  have hnone {property : String} : property ≠ "" → ∀ part ∈ s.parts, IsPart part := by simp [hparts]
  apply inProperty_cases (P := fun t n => Candid ⟨k.advance (n + 1), t⟩)
  case value =>
    intro _ hc _
    refine .of_unescaped ?_ hnone fun _ => ?_
    · rw [Text.Cursor.escaped_advance_one hrest]
      rcases hc with rfl | rfl <;> rfl
    · show MarkEscaped s.part.toList
      rw [hpart]
      exact .nil
  case comment =>
    intro _ _
    obtain ⟨line, document, heq⟩ := readComment_eq o s k
    rw [heq]
    exact .of_outside hvalue hnone
  case close =>
    intro _ _
    obtain ⟨document, heq⟩ := closeBlock_eq o s
    rw [heq, popMode_eq]
    have hback := h.returnable.head
    rw [← nil_append marks, ← h.returns] at hback
    refine .of_outside ?_ hnone
    rcases hback with hback | hback <;> simp [hback]
  case atSign => exact fun _ _ _ => .of_outside (by simp) hnone
  case escape =>
    intro _ _ text t n hescape
    obtain ⟨line, new, -, rfl⟩ := readEscape_eq hescape
    exact .of_outside hvalue hnone
  all_goals intros; exact .of_outside hvalue hnone

theorem inAtRule_candid (h : Steady s atSign marks .atRule []) (hmode : s.mode = .atRule) :
    Candid ⟨k.advance ((s.inAtRule o k c).2 + 1), (s.inAtRule o k c).1⟩ := by
  have hproperty : s.property = "" := h.buffers.2.1
  have hvalue : s.mode ≠ .value := by simp [hmode]
  have hnone {parts : List String} : s.property ≠ "" → ∀ part ∈ parts, IsPart part :=
    fun hne => absurd hproperty hne
  apply inAtRule_cases (P := fun t n => Candid ⟨k.advance (n + 1), t⟩)
  case words =>
    intro _
    refine inWords_cases (P := fun t n => Candid ⟨k.advance (n + 1), t⟩) ?_ ?_
    · intro _
      obtain ⟨parts, heq⟩ := flushPart_eq s
      rw [heq]
      exact .of_outside hvalue hnone
    · intro _
      exact .of_outside hvalue hnone
  case comment =>
    intro _ _
    obtain ⟨line, document, heq⟩ := readComment_eq o s k
    rw [heq]
    exact .of_outside hvalue hnone
  case quote => exact fun _ _ => .of_outside (by simp [beginString, pushMode]) hnone
  case bracket => exact fun _ _ => .of_outside (by simp [pushMode]) hnone
  case semicolon => exact fun _ _ => endAtRule_candid s
  case comma =>
    intro _ _
    obtain ⟨parts, heq⟩ := flushPart_eq s
    rw [heq]
    exact .of_outside hvalue hnone
  case brace =>
    intro _ _
    obtain ⟨document, heq⟩ := openAtBlock_eq o s (k.rest.drop 1)
    rw [heq]
    refine .of_outside ?_ hnone
    cases bodyOf s.flushPart.parts (k.rest.drop 1) <;> simp [bodyMode]
  case escape =>
    intro _ _ text t n hescape
    obtain ⟨line, new, -, rfl⟩ := readEscape_eq hescape
    exact .of_outside hvalue hnone
  case other => exact fun _ _ => .of_outside hvalue hnone

/-- Behind a declaration no parts are left. -/
theorem endDeclaration_candid (h : Steady s atSign marks .value [.property]) {t : State}
    (ht : ∃ log, t = { s with log }) : Candid ⟨k, (t.popMode .property).endDeclaration o⟩ := by
  obtain ⟨log, rfl⟩ := ht
  rw [popMode_eq]
  simp only [h.returns, cons_append, head?_cons, Option.getD_some, tail_cons]
  obtain ⟨document, new, -, heq⟩ := endDeclaration_eq o
    (s := { s with mode := .property, returns := [] ++ marks, log }) h.buffers.2
  rw [heq]
  exact .of_outside (by simp) (by simp)

theorem readEscape_candid (hcandid : Candid ⟨k, s⟩) (hmode : s.mode = .value) (hrest : k.rest = c :: tail)
    {text : String} {t : State} {n : Nat} (hescape : s.readEscape o k = (text, t, n)) :
    Candid ⟨k.advance (n + 1), { t with part := t.part ++ text }⟩ := by
  obtain ⟨htext, hn⟩ := readEscape_of_cons (o := o) (s := s) hrest
  rw [hescape] at htext hn
  simp only at htext hn
  obtain ⟨line, new, -, rfl⟩ := readEscape_eq hescape
  refine ⟨hcandid.parts, fun _ => ?_, fun _ hescaped htoken _ => ?_⟩
  · rw [String.toList_append, htext]
    exact (hcandid.part hmode).append (Text.Escape.mark_notMem_read _ _)
  · by_cases hzero : n = 0
    · -- nothing is taken along, so the token right behind the backslash keeps it
      subst hzero
      simp only [Text.Cursor.advance, hrest, drop_succ_cons, drop_zero] at htoken
      rw [Text.Escape.text_read_of_token hn.symm htoken] at htext
      rw [String.toList_append, htext]
      exact getLast?_concat
    · -- the escape ends with a digit or a space
      rw [hn, escaped_takenLength hrest (hn ▸ hzero)] at hescaped
      cases hescaped

theorem inValue_candid (h : Steady s atSign marks .value [.property]) (hcandid : Candid ⟨k, s⟩)
    (hmode : s.mode = .value) (hrest : k.rest = c :: tail) :
    Candid ⟨k.advance ((s.inValue o k c).2 + 1), (s.inValue o k c).1⟩ := by
  have hself : ∃ log, s = { s with log } := ⟨s.log, rfl⟩
  have hone (hc : c ≠ '\\') : (k.advance (0 + 1)).escaped = false := by
    rw [Text.Cursor.escaped_advance_one hrest, beq_eq_false_iff_ne.mpr hc, Bool.false_and]
  have hflush := Candid.isPart_flushPart hcandid.parts (hcandid.part hmode)
  obtain ⟨parts, heq⟩ := flushPart_eq s
  rw [heq] at hflush
  apply inValue_cases (P := fun t n => Candid ⟨k.advance (n + 1), t⟩)
  case last => exact fun _ => endDeclaration_candid h hself
  case inferred => exact fun _ _ => endDeclaration_candid h ⟨_, rfl⟩
  case semicolon => exact fun _ _ => endDeclaration_candid h hself
  case words =>
    intro htoken hlast
    refine inWords_cases (P := fun t n => Candid ⟨k.advance (n + 1), t⟩) ?_ ?_
    · intro hspace
      rw [heq]
      refine .of_unescaped (hone ?_) hflush fun _ => .nil
      rintro rfl
      exact absurd hspace (by decide)
    · intro hspace
      refine .of_unescaped (escaped_readRun hrest htoken hspace) hcandid.parts fun _ => ?_
      rw [String.toList_append]
      by_cases hc : c = '!'
      · -- it is escaped, and the backslash stands at the end of the word
        subst hc
        have htokenChar : k.rest.head?.any isTokenChar = true := by
          rw [hrest]
          exact (by decide : isTokenChar '!' = true)
        have hescaped : k.escaped = true := by simpa [Text.Cursor.atToken, htokenChar] using htoken
        rw [readRun_mark hrest]
        exact .mark (hcandid.backslash hmode hescaped htokenChar hlast)
      · exact (hcandid.part hmode).append (mark_notMem_readRun hc)
  case comment =>
    intro _ hcomment
    have hbehind := escaped_readComment (o := o) s hcomment
    obtain ⟨line, document, heq⟩ := readComment_eq o s k
    rw [heq]
    refine ⟨hcandid.parts, hcandid.part, fun _ hescaped _ hend => ?_⟩
    rcases hbehind with hbehind | hbehind
    · exact absurd (hbehind.symm.trans hescaped) (by decide)
    · exact absurd hbehind hend
  case quote => exact fun _ _ => .of_outside (by simp [beginString, pushMode]) hcandid.parts
  case bracket =>
    exact fun _ _ => .of_outside (by simp [pushMode]) hcandid.parts
  case mark =>
    intro _ hc
    rw [heq]
    refine .of_unescaped (hone ?_) (fun hne part hpart => ?_) fun _ => .nil
    · rcases hc with rfl | rfl <;> decide
    · rcases mem_append.mp hpart with hpart | hpart
      · exact hflush hne part hpart
      · rw [mem_singleton.mp hpart]
        rcases hc with rfl | rfl
        · exact .inl rfl
        · exact .inr (.inl rfl)
  case escape => exact fun _ _ text t n hescape => readEscape_candid hcandid hmode hrest hescape
  case close =>
    intro _ _
    obtain ⟨document, new, -, hend⟩ := endDeclaration_eq o h.buffers.2
    obtain ⟨document', hclose⟩ := closeBlock_eq o (s.endDeclaration o)
    rw [hclose, hend, popMode_eq]
    have hback := h.returnable.head
    refine .of_outside ?_ (by simp)
    simp only [h.returns, cons_append, drop_succ_cons]
    rcases hback with hback | hback <;> simp [hback]
  case other =>
    intro _ hmark hbackslash _ _
    refine .of_unescaped (hone hbackslash) hcandid.parts fun _ => ?_
    rw [String.toList_push]
    exact (hcandid.part hmode).append (by simpa using Ne.symm hmark)

/-- A closing parenthesis stands at the end of what has been read. -/
theorem part_pushArgument_close (s : State) : ∃ front, (s.pushArgument ')').part.toList = front ++ [')'] := by
  have hspace : ((')' == ' ') && (last? s.part == some ' ' || last? s.part == some ','
      || last? s.part == some '(')) = false := rfl
  unfold pushArgument
  simp only [hspace, Bool.false_eq_true, if_false]
  split
  · exact ⟨_, String.toList_push _⟩
  · exact ⟨_, String.toList_push _⟩

theorem inBracket_candid (hcandid : Candid ⟨k, s⟩) (hmode : s.mode = .bracket) (hrest : k.rest = c :: tail) :
    Candid ⟨k.advance ((s.inBracket k c).2 + 1), (s.inBracket k c).1⟩ := by
  have hvalue : s.mode ≠ .value := by simp [hmode]
  have hpush (depth : Nat) (x : Char) {k : Text.Cursor} :
      Candid ⟨k, ({ s with depth } : State).pushArgument x⟩ := by
    obtain ⟨part, heq⟩ := pushArgument_eq { s with depth } x
    rw [heq]
    exact .of_outside hvalue hcandid.parts
  apply inBracket_cases (P := fun t n => Candid ⟨k.advance (n + 1), t⟩)
  case run => exact fun _ => .of_outside hvalue hcandid.parts
  case quote => exact fun _ _ => .of_outside (by simp [beginString, pushMode]) hcandid.parts
  case close =>
    rintro _ rfl _
    obtain ⟨front, hfront⟩ := part_pushArgument_close { s with depth := s.depth - 1 }
    obtain ⟨part, heq⟩ := pushArgument_eq { s with depth := s.depth - 1 } ')'
    rw [heq] at hfront ⊢
    rw [popMode_eq]
    refine .of_unescaped ?_ hcandid.parts fun _ => ?_
    · rw [Text.Cursor.escaped_advance_one hrest]
      rfl
    · rw [hfront]
      exact .concat front (by decide) (by decide) (by decide)
  case deeper => exact fun _ _ => hpush _ c
  case shallower => exact fun _ _ _ => hpush _ c
  case space => exact fun _ => hpush s.depth ' '
  case comma => exact fun _ _ => hpush s.depth c

theorem part_closeString (hmode : (s.popMode .value).mode ≠ .selector) :
    (s.closeString o).part = s.part ++ s.stringText o := by
  rw [popMode_eq] at hmode
  unfold closeString
  simp only [popMode_eq]
  rw [if_neg hmode]

/-- A string keeps its quotes where the source is kept, so that it ends with one. -/
theorem closeString_candid (ho : o.preserveCss = true) (h : Steady s atSign marks base pending)
    (hcandid : Candid ⟨k, s⟩) (hmode : s.mode = .string) (hquote : IsQuote s.quote) {string : String} {log : List Message}
    (hlast : string.toList.getLast? = some s.quote) {k' : Text.Cursor} (hbehind : k'.escaped = false ∨ k'.rest = []) :
    Candid ⟨k', ({ s with string, log } : State).closeString o⟩ := by
  have hinside := h.inside
  rw [hmode] at hinside
  cases hinside with
  | @string base mode pending hinside hproperty hstring =>
    have hreturns : s.returns = mode :: (pending ++ marks) := by rw [h.returns, cons_append]
    have hpop : (({ s with string, log } : State).popMode .value).mode = mode := by
      rw [popMode_eq, hreturns]
      rfl
    have hpart := part_closeString (o := o) (s := { s with string, log })
    rw [hpop, stringText, if_pos ho] at hpart
    obtain ⟨selector, part, heq, -⟩ := closeString_eq o { s with string, log }
    rw [heq] at hpart ⊢
    simp only [hreturns, head?_cons, Option.getD_some, tail_cons] at hpart ⊢
    refine ⟨hcandid.parts, ?_, ?_⟩
    · rintro rfl
      obtain ⟨front, hfront⟩ := getLast?_eq_some_iff.mp hlast
      rw [hpart (by decide), String.toList_append, hfront, ← append_assoc]
      rcases hquote with hquote | hquote <;> rw [hquote] <;>
        exact .concat _ (by decide) (by decide) (by decide)
    · intro _ hescaped htoken _
      rcases hbehind with hbehind | hbehind
      · exact absurd (hbehind.symm.trans hescaped) (by decide)
      · simp [hbehind] at htoken

theorem inString_candid (ho : o.preserveCss = true) (h : Steady s atSign marks base pending)
    (hcandid : Candid ⟨k, s⟩) (hmode : s.mode = .string) (hquote : IsQuote s.quote) (hrest : k.rest = c :: tail) :
    Candid ⟨k.advance ((s.inString o k c).2 + 1), (s.inString o k c).1⟩ := by
  have hvalue : s.mode ≠ .value := by simp [hmode]
  apply inString_cases (P := fun t n => Candid ⟨k.advance (n + 1), t⟩)
  case close =>
    rintro _ rfl
    refine closeString_candid ho h hcandid hmode hquote ?_ (.inl ?_)
    · rw [String.toList_push, getLast?_concat]
    · rw [Text.Cursor.escaped_advance_one hrest]
      rcases hquote with hquote | hquote <;> rw [hquote] <;> rfl
  all_goals intros; exact .of_outside hvalue hcandid.parts

end Modes

/-! ## Runs -/

section

variable (ho : o.preserveCss = true)
include ho

theorem step_candid {s : State} {atSign : Mode} {marks : List Mode}
    (htracked : Tracked s atSign marks) {k : Text.Cursor} {c : Char}
    (hcandid : Candid ⟨k, s⟩) (hquote : IsQuote s.quote) (hrest : k.rest = c :: tail) :
    Candid ⟨k.advance ((s.step o k c).2 + 1), (s.step o k c).1⟩ := by
  obtain ⟨base, pending, h⟩ := htracked
  unfold step
  cases hmode : s.mode with
  | selector => exact inSelector_candid (h.ofMode hmode (by decide) (by decide)) hmode
  | property => exact inProperty_candid (h.ofMode hmode (by decide) (by decide)) hmode hrest
  | value => exact inValue_candid (h.ofMode hmode (by decide) (by decide)) hcandid hmode hrest
  | string => exact inString_candid ho h hcandid hmode hquote hrest
  | bracket => exact inBracket_candid hcandid hmode hrest
  | atRule => exact inAtRule_candid (h.ofMode hmode (by decide) (by decide)) hmode

theorem next_candid {r : Reader} {atSign : Mode} {marks : List Mode}
    (htracked : Tracked r.state atSign marks) (hquote : IsQuote r.state.quote) (hcandid : Candid r) :
    Candid (r.next o) := by
  by_cases hrest : r.cursor.rest = []
  · rwa [next_of_nil hrest]
  refine next_cases (P := Candid) hrest ?_ ?_
  · exact fun _ => endAtRule_candid r.state
  · intro c tail hrest _
    obtain ⟨line, hline⟩ := r.state.countLine_eq c
    rw [hline]
    exact step_candid ho (htracked.withLine line) ⟨hcandid.parts, hcandid.part, hcandid.backslash⟩ hquote hrest

/-- **Exclamation marks in front of every step** are parts of their own, or stand behind a backslash, in a string or
among arguments. -/
theorem after_candid (css : String) (n : Nat) : Candid (after o css n) := by
  induction n with
  | zero => exact .of_outside (by simp) (by simp)
  | succ n ih =>
    rw [after_succ]
    have htracked := Trail.after_tracked o css n
    rw [Trail.reader_after] at htracked
    exact next_candid ho htracked (after_quote o css n) ih

/-- The values of the declarations that a step makes have a text, and show whether they are important. -/
theorem Candid.honest_declaration? {r : Reader} (h : Candid r)
    (hmode : r.state.mode = .value) {d : Declaration} (hd : r.state.declaration? o = some d) :
    d.2.text ≠ "" ∧ Honest d.2 :=
  Reader.honest_declaration? ho (isPart_flushPart h.parts (h.part hmode)) hd

/-! ## The end of the text -/

end

theorem getLast?_closedString (s : State) : s.closedString.toList.getLast? = some s.quote := by
  unfold closedString
  simp only
  rw [String.toList_push, getLast?_concat]

theorem finishString_candid (ho : o.preserveCss = true) {s : State} {atSign : Mode} {marks : List Mode}
    (htracked : Tracked s atSign marks) (hquote : IsQuote s.quote)
    {k : Text.Cursor} (hrest : k.rest = []) (hcandid : Candid ⟨k, s⟩) : Candid ⟨k, s.finishString o⟩ := by
  unfold finishString
  split
  · next hmode =>
    obtain ⟨base, pending, h⟩ := htracked
    exact closeString_candid ho h hcandid hmode hquote (getLast?_closedString s) (.inr hrest)
  · exact hcandid

theorem finishBracket_candid {s : State} {k : Text.Cursor} (hrest : k.rest = []) (hcandid : Candid ⟨k, s⟩) :
    Candid ⟨k, s.finishBracket⟩ := by
  unfold finishBracket
  split
  · simp only
    rw [popMode_eq]
    refine ⟨hcandid.parts, fun _ => ?_, fun _ _ htoken => by simp [hrest] at htoken⟩
    have hreplicate : replicate (max s.depth 1) ')' = replicate (max s.depth 1 - 1) ')' ++ [')'] := by
      rw [← replicate_succ']
      congr 1
      omega
    show MarkEscaped (s.part ++ String.ofList (replicate (max s.depth 1) ')')).toList
    rw [String.toList_append, String.toList_ofList, hreplicate, ← append_assoc]
    exact .concat _ (by decide) (by decide) (by decide)
  · exact hcandid

end Stylesheet.Reader
