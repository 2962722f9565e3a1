import Stylesheet.Proofs.Layout.Node
import Stylesheet.Proofs.Reader.Effects
import Stylesheet.Proofs.Text.Cursor
import Stylesheet.Proofs.Value.Parts

/-!
# Reading a text piece by piece

What comes of a text depends on a state of the reader only through what a `View` shows of it: the mode, the stack,
the frames of the tree and the buffers of names and values. `Reads o tail v text w` says that a reader with view `v` in
front of a text, with `tail` behind that, gets to view `w` behind it. Readings of two texts make up a reading of the
one put behind the other (`Reads.append`), so that a long text is read piece by piece.

The pieces are words, blanks and single tokens. Each mode has one lemma for each kind of piece.
-/

namespace Stylesheet.Reader

open Text State List
open String (ofList)

/-! ## Views -/

/-- What a state shows of the document and of the construct that is being read. -/
structure View where
  mode : Mode
  returns : List Mode
  frames : List Frame
  /-- What an at-rule stands among. It does not matter outside of at-rules. -/
  origin : Keyword.AtBody := .rules
  selector : String := ""
  property : String := ""
  parts : Value.Parts := {}

/-- A view with nothing in the buffers. -/
abbrev View.bare (mode : Mode) (returns : List Mode) (frames : List Frame) : View := { mode, returns, frames }

/-- The state has this view, and there are no rules about the document as a whole. -/
structure Shows (s : State) (v : View) : Prop where
  mode : s.mode = v.mode
  returns : s.returns = v.returns
  builds : s.Builds v.frames
  origin : v.mode = .atRule → s.origin = v.origin
  selector : s.selector = v.selector
  property : s.property = v.property
  word : s.part = v.parts.word
  done : s.parts = v.parts.done
  headless : s.document.Headless

/-- The text is read from one view to the other. Nothing in it escapes what comes behind it, and line ends in it are
unified. -/
def Reads (o : Options) (tail : List Char) (v : View) (text : String) (w : View) : Prop :=
  '\r' ∉ text.toList ∧ ∀ s before, Shows s v → oddBackslashes before = false →
    ∃ t before', Shows t w ∧ oddBackslashes before' = false ∧
      run o ⟨⟨before, text.toList ++ tail⟩, s⟩ = run o ⟨⟨before', tail⟩, t⟩

variable {o : Options} {tail : List Char} {u v w : View}

theorem Reads.nil : Reads o tail v "" v :=
  ⟨by simp, fun s before hs hbefore => ⟨s, before, hs, hbefore, rfl⟩⟩

/-- One text behind another. -/
theorem Reads.append {a b : String} (ha : Reads o (b.toList ++ tail) u a v) (hb : Reads o tail v b w) :
    Reads o tail u (a ++ b) w := by
  refine ⟨?_, fun s before hs hbefore => ?_⟩
  · rw [String.toList_append, mem_append, not_or]
    exact ⟨ha.1, hb.1⟩
  · obtain ⟨t, before', ht, hbefore', hrun⟩ := ha.2 s before hs hbefore
    obtain ⟨t', before'', ht', hbefore'', hrun'⟩ := hb.2 t before' ht hbefore'
    refine ⟨t', before'', ht', hbefore'', ?_⟩
    rw [String.toList_append, append_assoc, hrun, hrun']

/-- What one step takes along is read. -/
theorem Reads.of_step {c : Char} {more : List Char} (hreturn : '\r' ∉ c :: more)
    (hlast : (c :: more).getLast? ≠ some '\\') (hbrace : v.mode = .atRule → c ≠ '}')
    (h : ∀ (s : State) (k : Text.Cursor), Shows s v → k.escaped = false → k.rest = c :: (more ++ tail) →
      ∃ t, s.step o k c = (t, more.length) ∧ Shows t w) : Reads o tail v (ofList (c :: more)) w := by
  refine ⟨by rwa [String.toList_ofList], fun s before hs hbefore => ?_⟩
  rw [String.toList_ofList]
  have hcount : Shows (s.countLine c) v := by
    obtain ⟨line, hline⟩ := s.countLine_eq c
    rw [hline]
    exact ⟨hs.mode, hs.returns, hs.builds.congr rfl rfl, hs.origin, hs.selector, hs.property, hs.word, hs.done,
      hs.headless⟩
  obtain ⟨t, hstep, ht⟩ := h (s.countLine c) ⟨before, c :: (more ++ tail)⟩ hcount hbefore rfl
  have hshared : atSharedBrace ⟨⟨before, c :: (more ++ tail)⟩, s⟩ = false := by
    by_cases hmode : v.mode = .atRule
    · simp [atSharedBrace, hbrace hmode]
    · simp [atSharedBrace, hs.mode, hmode]
  refine ⟨t, (c :: more).reverse ++ before, ht, ?_, ?_⟩
  · exact oddBackslashes_reverse_append (cons_ne_nil c more) hlast before
  · rw [cons_append, ← run_next, next_of_step hshared hstep]

/-! ## Looking at the next character -/

section Cursor

variable {k : Text.Cursor} {c : Char} {more rest : List Char}

theorem atToken_eq (hescaped : k.escaped = false) (hrest : k.rest = c :: rest) : k.atToken = isTokenChar c := by
  simp [Text.Cursor.atToken, hescaped, hrest]

theorem atComment_eq_false (hrest : k.rest = c :: rest) (hc : c ≠ '/') : atComment k = false := by
  cases rest with
  | nil => simp [atComment, hrest]
  | cons d rest => simp [atComment, hrest, hc]

/-- A word ends here. -/
def Stops (tail : List Char) : Prop := ∃ c rest, tail = c :: rest ∧ isOrdinary c = false

theorem Stops.ne_nil (h : Stops tail) : tail ≠ [] := by
  obtain ⟨c, rest, rfl, -⟩ := h
  exact cons_ne_nil c rest

theorem Stops.of_head {text : String} {c : Char} {rest : List Char} (h : text.toList = c :: rest)
    (hc : isOrdinary c = false) : Stops (text.toList ++ tail) :=
  ⟨c, rest ++ tail, by rw [h, cons_append], hc⟩

/-- Words end in front of this at the latest, whatever else stands there. -/
theorem Stops.exists_mem_append (h : Stops tail) (front : List Char) : ∃ d ∈ front ++ tail, isOrdinary d = false := by
  obtain ⟨d, rest, rfl, hd⟩ := h
  exact ⟨d, mem_append_right _ mem_cons_self, hd⟩

theorem Stops.exists_mem (h : Stops tail) : ∃ d ∈ tail, isOrdinary d = false := h.exists_mem_append []

end Cursor

/-- A single character is read where the step over it is known. -/
theorem Reads.of_char {c : Char} (hreturn : c ≠ '\r') (hlast : c ≠ '\\') (hbrace : v.mode = .atRule → c ≠ '}')
    (h : ∀ (s : State) (k : Text.Cursor), Shows s v → k.escaped = false → k.rest = c :: tail →
      ∃ t, s.step o k c = (t, 0) ∧ Shows t w) : Reads o tail v (ofList [c]) w :=
  Reads.of_step (by simpa using Ne.symm hreturn) (by simpa using hlast) hbrace h

/-- A single token is read where the step over it is known. -/
theorem Reads.of_token {c : Char} (htoken : isTokenChar c = true) (hother : c ≠ '\\' ∧ c ≠ '/')
    (hbrace : v.mode = .atRule → c ≠ '}')
    (h : ∀ (s : State) (k : Text.Cursor), Shows s v → k.rest = c :: tail → k.atToken = true → atComment k = false →
      ∃ t, s.step o k c = (t, 0) ∧ Shows t w) : Reads o tail v (ofList [c]) w := by
  have hreturn : c ≠ '\r' := by
    rintro rfl
    exact absurd htoken (by decide)
  exact .of_char hreturn hother.1 hbrace fun s k hs hescaped hrest =>
    h s k hs hrest ((atToken_eq hescaped hrest).trans htoken) (atComment_eq_false hrest hother.2)

/-- A blank or a line end is read where the step over it is known. -/
theorem Reads.of_blank {c : Char} (hc : c = ' ' ∨ c = '\n')
    (h : ∀ (s : State) (k : Text.Cursor), Shows s v → k.rest = c :: tail → k.atToken = false → isSpace c = true →
      ∃ t, s.step o k c = (t, 0) ∧ Shows t w) : Reads o tail v (ofList [c]) w := by
  have hplain : c ≠ '\r' ∧ c ≠ '\\' ∧ c ≠ '}' ∧ isTokenChar c = false ∧ isSpace c = true := by
    rcases hc with rfl | rfl <;> decide
  obtain ⟨hreturn, hlast, hbrace, htoken, hspace⟩ := hplain
  exact .of_char hreturn hlast (fun _ => hbrace) fun s k hs hescaped hrest =>
    h s k hs hrest ((atToken_eq hescaped hrest).trans htoken) hspace

/-! ## Words -/

/-- Puts a text where the mode collects it. -/
def View.putText (v : View) (text : String) : View :=
  match v.mode with
  | .selector => { v with selector := v.selector ++ text }
  | .property => { v with property := v.property ++ text }
  | _ => { v with parts := { v.parts with word := v.parts.word ++ text } }

section Words

variable {s : State} {k : Text.Cursor} {c : Char} {before word : List Char}

theorem Shows.putText (hs : Shows s v) (text : String) : Shows (s.putText text) (v.putText text) := by
  unfold State.putText View.putText
  have hmode := hs.mode
  cases hv : v.mode <;> rw [hv] at hmode <;> simp only [hmode] <;>
    exact ⟨rfl, hs.returns, hs.builds.congr rfl rfl, fun h => hs.origin (hv.trans h), by simp only [hs.selector],
      by simp only [hs.property], by simp only [hs.word], hs.done, hs.headless⟩

/-- Outside of strings a run of ordinary characters is read at once. -/
theorem step_ordinary (hmode : s.mode ≠ .string) (hescaped : k.escaped = false) (hrest : k.rest = c :: tail)
    (htail : tail ≠ []) (hc : isOrdinary c = true) : s.step o k c =
      (s.putText (ofList (c :: tail.takeWhile isOrdinary)), (tail.takeWhile isOrdinary).length) := by
  have htoken : k.atToken = false := by
    rw [atToken_eq hescaped hrest]
    exact isTokenChar_of_isOrdinary hc
  have hspace := isSpace_of_isOrdinary hc
  have hrun : readRun k c = (ofList (c :: tail.takeWhile isOrdinary), (tail.takeWhile isOrdinary).length) := by
    simp [readRun, Text.Cursor.ordinaryRun, hrest, takeWhile_cons_of_pos hc]
  have hne {d : Char} (hd : isOrdinary d = false) : (c == d) = false := by
    simpa using ne_of_isOrdinary hc hd
  unfold step State.putText
  cases hstate : s.mode with
  | selector =>
    unfold inSelector
    simp [htoken, hspace, hrun, hstate]
  | property =>
    unfold inProperty
    simp [htoken, hspace, hrun, hstate]
  | value =>
    unfold inValue inWords
    simp [htoken, hspace, hrun, hrest, htail, hne (d := '\n') (by decide), hstate]
  | string => exact absurd hstate hmode
  | bracket =>
    unfold inBracket
    simp [hspace, hrun, hne (d := '"') (by decide), hne (d := '\'') (by decide), hne (d := '(') (by decide),
      hne (d := ')') (by decide), hne (d := ',') (by decide), hstate]
  | atRule =>
    unfold inAtRule inWords
    simp [htoken, hspace, hrun, hstate]

/-- What is left to read behind the run at a cursor. -/
theorem next_ordinary (hmode : s.mode ≠ .string) (hbefore : oddBackslashes before = false) (htail : tail ≠ [])
    (hc : isOrdinary c = true) : next o ⟨⟨before, c :: tail⟩, s⟩ =
      ⟨⟨(c :: tail.takeWhile isOrdinary).reverse ++ before, tail.dropWhile isOrdinary⟩,
        s.putText (ofList (c :: tail.takeWhile isOrdinary))⟩ := by
  have hshared : atSharedBrace ⟨⟨before, c :: tail⟩, s⟩ = false := by
    simp [atSharedBrace, ne_of_isOrdinary hc (d := '}') (by decide)]
  have hcount : s.countLine c = s := if_neg (by simpa using ne_of_isOrdinary hc (by decide))
  have hstep := step_ordinary (o := o) (k := ⟨before, c :: tail⟩) hmode hbefore rfl htail hc
  have hsplit := takeWhile_append_dropWhile (p := isOrdinary) (l := tail)
  generalize tail.takeWhile isOrdinary = run at hsplit hstep ⊢
  generalize tail.dropWhile isOrdinary = rest at hsplit ⊢
  subst hsplit
  exact next_of_step hshared (by rwa [hcount])

theorem oddBackslashes_of_isOrdinary (hc : isOrdinary c = true) (before : List Char) :
    oddBackslashes (c :: before) = false := by
  have hne : c ≠ '\\' := ne_of_isOrdinary hc (by decide)
  rw [oddBackslashes_cons, beq_eq_false_iff_ne.mpr hne, Bool.false_and]

/-- The characters of a run can be read one by one: either way the whole run has been read behind the next step. -/
theorem run_ordinary (hmode : s.mode ≠ .string) (hbefore : oddBackslashes before = false)
    (hend : ∃ d ∈ tail, isOrdinary d = false) (hc : isOrdinary c = true) :
    run o ⟨⟨before, c :: tail⟩, s⟩ = run o ⟨⟨c :: before, tail⟩, s.putText (ofList [c])⟩ := by
  obtain ⟨d, hd, hordinary⟩ := hend
  obtain ⟨e, rest, rfl⟩ := exists_cons_of_ne_nil (ne_nil_of_mem hd)
  have hfirst := next_ordinary (o := o) hmode hbefore (cons_ne_nil e rest) hc
  cases he : isOrdinary e with
  | false =>
    rw [takeWhile_cons_of_neg (by simp [he]), dropWhile_cons_of_neg (by simp [he])] at hfirst
    rw [← run_next, hfirst]
    rfl
  | true =>
    have hrest : rest ≠ [] := by
      rintro rfl
      rw [mem_singleton.mp hd, he] at hordinary
      cases hordinary
    have hmode' : (s.putText (ofList [c])).mode ≠ .string := by rwa [mode_putText]
    have hbefore' := oddBackslashes_of_isOrdinary hc before
    rw [← run_next, hfirst, ← run_next o ⟨⟨c :: before, e :: rest⟩, _⟩, next_ordinary hmode' hbefore' hrest he,
      putText_putText, ← String.ofList_append, takeWhile_cons_of_pos he, dropWhile_cons_of_pos he,
      reverse_cons, append_assoc]
    rfl

/-- A word is read character by character, as long as it ends before the text does. -/
theorem run_word (hword : ∀ c ∈ word, isOrdinary c = true) (hmode : s.mode ≠ .string)
    (hbefore : oddBackslashes before = false) (hend : ∃ d ∈ tail, isOrdinary d = false) :
    ∃ before', oddBackslashes before' = false ∧
      run o ⟨⟨before, word ++ tail⟩, s⟩ = run o ⟨⟨before', tail⟩, s.putText (ofList word)⟩ := by
  induction word generalizing s before with
  | nil => exact ⟨before, hbefore, by rw [String.ofList_nil, putText_empty]; rfl⟩
  | cons c word ih =>
    obtain ⟨hc, hword⟩ := forall_mem_cons.mp hword
    have hend' : ∃ d ∈ word ++ tail, isOrdinary d = false := hend.imp fun _ h => ⟨mem_append_right _ h.1, h.2⟩
    obtain ⟨before', hlast, hrest⟩ := ih (s := s.putText (ofList [c])) hword (by rwa [mode_putText])
      (oddBackslashes_of_isOrdinary hc before)
    refine ⟨before', hlast, ?_⟩
    rw [cons_append, run_ordinary hmode hbefore hend' hc, hrest, putText_putText, ← String.ofList_append]
    rfl

/-- **A word** goes into the buffer of the mode. -/
theorem reads_word {word : String} (hmode : v.mode ≠ .string) (hword : IsWord word)
    (hend : ∃ d ∈ tail, isOrdinary d = false) : Reads o tail v word (v.putText word) := by
  refine ⟨hword.noReturn, fun s before hs hbefore => ?_⟩
  obtain ⟨before', hlast, hrun⟩ := run_word (o := o) hword.ordinary (by rwa [hs.mode]) hbefore hend
  rw [String.ofList_toList] at hrun
  exact ⟨_, before', hs.putText word, hlast, hrun⟩

end Words

end Stylesheet.Reader
