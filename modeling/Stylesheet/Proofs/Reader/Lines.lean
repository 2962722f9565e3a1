import Stylesheet.Proofs.Reader.Compose
import Stylesheet.Proofs.Reader.Taken

/-!
# Lines

The reader counts lines in three places: a step counts the line break it reads, a comment and an escape count those they
take along. Together they count each line break of the text once (`Passes.line`), so that in front of every step the
line is that of the next character (`line_after`).

Messages are about the line that has been reached when they are written, but for those about the color and the numbers
of a value, which are about the line on which the value starts. `Dated` says what follows for the log.
-/

namespace Stylesheet

namespace Reader

open Text (Cursor)
open List

/-! ## The log -/

/-- The messages of the reader itself, in order. -/
def ownMessages (log : List Message) : List Message := log.filter (·.component == .parser)

theorem ownMessages_append (log new : List Message) : ownMessages (log ++ new) = ownMessages log ++ ownMessages new :=
  filter_append _ _

/-- Messages are about lines that have been reached, and those of the reader itself are in the order of their lines. -/
structure Dated (s : State) : Prop where
  one_le_valueLine : 1 ≤ s.valueLine
  valueLine_le : s.valueLine ≤ s.line
  lines : ∀ m ∈ s.log, 1 ≤ m.line ∧ m.line ≤ s.line
  ordered : (ownMessages s.log).Pairwise fun m m' => m.line ≤ m'.line

/-- The state behind some characters that were passed: their line breaks are counted, and the log is in order if it
was before. -/
structure Passes (s t : State) (passed : List Char) : Prop where
  line : t.line = s.line + passed.count '\n'
  dated : Dated s → Dated t

namespace Passes

variable {s t u : State} {passed more : List Char}

/-- Where nothing is said, at most the line changes. -/
theorem silent (hline : t.line = s.line + passed.count '\n') (hvalue : t.valueLine = s.valueLine)
    (hlog : t.log = s.log) :
    Passes s t passed where
  line := hline
  dated h :=
    { one_le_valueLine := by rw [hvalue]; exact h.one_le_valueLine
      valueLine_le := by rw [hvalue, hline]; exact h.valueLine_le.trans (Nat.le_add_right _ _)
      lines := by
        intro m hm
        rw [hlog] at hm
        rw [hline]
        exact ⟨(h.lines m hm).1, (h.lines m hm).2.trans (Nat.le_add_right _ _)⟩
      ordered := by rw [hlog]; exact h.ordered }

/-- Neither is a line passed nor anything said. -/
theorem quiet (hline : t.line = s.line) (hvalue : t.valueLine = s.valueLine) (hlog : t.log = s.log) : Passes s t [] :=
  silent hline hvalue hlog

theorem trans (h : Passes s t passed) (h' : Passes t u more) : Passes s u (passed ++ more) where
  line := by rw [h'.line, h.line, count_append, Nat.add_assoc]
  dated hs := h'.dated (h.dated hs)

/-- Behind characters that were passed before. -/
theorem behind (h : Passes s t passed) (h' : Passes t u []) : Passes s u passed := by
  rw [← append_nil passed]
  exact h.trans h'

/-- The reader says something about the line it is on. -/
theorem own (s : State) (severity : Severity) (text : String) :
    Passes s (s.say [⟨.parser, severity, s.line, text⟩]) [] where
  line := rfl
  dated h := by
    have hone : 1 ≤ s.line := h.one_le_valueLine.trans h.valueLine_le
    refine ⟨h.one_le_valueLine, h.valueLine_le, ?_, ?_⟩
    · intro m hm
      rcases mem_append.mp hm with hm | hm
      · exact h.lines m hm
      · rw [mem_singleton.mp hm]
        exact ⟨hone, le_rfl⟩
    · rw [State.say, ownMessages_append]
      refine pairwise_append.mpr ⟨h.ordered, pairwise_singleton _ _, ?_⟩
      intro m hm m' hm'
      -- what has been said before is about this line or one in front of it
      rw [mem_singleton.mp hm']
      exact (h.lines m (mem_of_mem_filter hm)).2

/-- Something is said about the value that is being read. -/
theorem about {messages : List Message} (h : Value.About s.valueLine messages) : Passes s (s.say messages) [] where
  line := rfl
  dated hs := by
    have hown : ownMessages messages = [] := by
      refine filter_eq_nil_iff.mpr fun m hm => ?_
      simpa using (h m hm).1
    refine ⟨hs.one_le_valueLine, hs.valueLine_le, ?_, ?_⟩
    · intro m hm
      rcases mem_append.mp hm with hm | hm
      · exact hs.lines m hm
      · rw [(h m hm).2.1]
        exact ⟨hs.one_le_valueLine, hs.valueLine_le⟩
    · rw [State.say, ownMessages_append, hown, append_nil]
      exact hs.ordered

end Passes

/-! ## Moves -/

variable {o : Options} {s : State} {k : Cursor} {c : Char}

theorem popMode_passes (s : State) (otherwise : Mode) : Passes s (s.popMode otherwise) [] := by
  rw [State.popMode_eq]
  exact .quiet rfl rfl rfl

theorem closeBlock_passes (s : State) : Passes s (s.closeBlock o) [] := by
  obtain ⟨document, heq⟩ := State.closeBlock_eq o s
  rw [heq]
  exact .quiet rfl rfl rfl

/-- The end of a declaration says something about its value and then about the declaration as a whole. -/
theorem said_passes (s : State) : Passes s (s.say (s.said o)) [] := by
  unfold State.said
  simp only
  generalize Text.lower (Text.trim s.property) = property
  generalize (State.cutImportant s.flushPart.parts).1 = words
  have htidied := tidied_about o property s.valueLine words
  generalize words.map (State.tidyPart o property s.valueLine) = tidied at htidied ⊢
  have hmore {more : List Message} (h : Passes (s.say (tidied.flatMap (·.2))) ((s.say (tidied.flatMap (·.2))).say more) []) :
      Passes s (s.say (tidied.flatMap (·.2) ++ more)) [] := by
    rw [State.say, ← append_assoc]
    exact (Passes.about htidied).trans h
  split
  · exact .quiet rfl rfl (append_nil _)
  split
  · exact .own s _ _
  split
  · exact hmore (.own _ _ _)
  split
  · exact hmore (.quiet rfl rfl (append_nil _))
  split <;> exact hmore (.own _ _ _)

theorem endDeclaration_passes (s : State) : Passes s (s.endDeclaration o) [] := by
  obtain ⟨document, heq⟩ := State.exists_endDeclaration_eq o s
  rw [heq]
  exact (said_passes s).trans (.quiet rfl rfl rfl)

theorem addAtRule_passes (s : State) : Passes s (s.addAtRule o) [] := by
  -- what is said, if anything, is said first, and then the document is changed
  have hwarn (p : Prop) [Decidable p] (text : String) : Passes s (if p then s.warn text else s) [] := by
    split
    · exact .own s _ _
    · exact .quiet rfl rfl rfl
  unfold State.addAtRule
  split
  · exact .quiet rfl rfl rfl
  · split
    · unfold State.addCharset
      split
      · exact .own s _ _
      · exact (hwarn _ _).trans (.quiet rfl rfl rfl)
    · exact (hwarn _ _).trans (.quiet rfl rfl rfl)
    · unfold State.addImport
      simp only
      split
      · exact (Passes.own s _ _).trans (.quiet rfl rfl rfl)
      · exact (hwarn _ _).trans (.quiet rfl rfl rfl)
    · unfold State.addLineAt
      simp only [State.pushToken_eq]
      exact .quiet rfl rfl rfl

theorem endAtRule_passes (s : State) : Passes s (s.endAtRule o) [] := by
  have hflush : Passes s s.flushPart [] := .quiet rfl rfl rfl
  have hrule : Passes s (s.flushPart.addAtRule o) [] := hflush.trans (addAtRule_passes s.flushPart)
  unfold State.endAtRule
  generalize s.flushPart.addAtRule o = t at hrule
  exact hrule.trans (.quiet rfl rfl rfl)

/-- There is no line break in a run. -/
theorem readRun_passes {t : State} (hline : t.line = s.line) (hvalue : t.valueLine = s.valueLine)
    (hlog : t.log = s.log) :
    Passes s t ((k.rest.drop 1).take (State.readRun k c).2) := by
  have hcount : (k.ordinaryRun.drop 1).count '\n' = 0 := by
    refine count_eq_zero.mpr fun hmem => ?_
    exact absurd (mem_takeWhile_imp (mem_of_mem_drop hmem)) (by decide)
  rw [take_readRun]
  exact .silent (by rw [hline, hcount, Nat.add_zero]) hvalue hlog

/-- A comment counts the line breaks of its text. -/
theorem readComment_passes (s : State) (hcomment : State.atComment k = true) :
    Passes s (s.readComment o k).1 ((k.rest.drop 1).take (s.readComment o k).2) := by
  obtain ⟨finish, hfinish, htake⟩ := take_commentAt hcomment
  have hcount : ('*' :: (State.commentAt k).1 ++ finish).count '\n' = (State.commentAt k).1.count '\n' := by
    rcases hfinish with rfl | rfl
    · simp
    · simp
  rw [State.readComment_eq_addComment, htake]
  unfold State.addComment
  rw [State.pushToken_eq]
  exact .silent (by rw [hcount]) rfl rfl

/-- An escape counts the line breaks it takes along, and only then says something. -/
theorem readEscape_passes {t : State} {text : String} {n : Nat} (h : s.readEscape o k = (text, t, n)) :
    Passes s t ((k.rest.drop 1).take n) := by
  have ht : t = (s.readEscape o k).2.1 := by rw [h]
  have hn : n = (s.readEscape o k).2.2 := by rw [h]
  rw [ht, hn]
  unfold State.readEscape
  simp only
  generalize Text.Escape.read o.removeBackslash (k.rest.drop 1) = e
  have hcounted : Passes s { s with line := s.line + ((k.rest.drop 1).take e.length).count '\n' }
      ((k.rest.drop 1).take e.length) := .silent rfl rfl rfl
  cases e.change with
  | none => exact hcounted
  | some change => exact hcounted.behind (.own _ _ _)

/-! ## Steps -/

theorem Act.passes {first t : State} (h : Act o first s t) : Passes s t [] := by
  cases h with
  | write h => exact .quiet (by rw [h]) (by rw [h]) (by rw [h])
  | say => exact .own s _ _
  | valueLine =>
    -- the value starts on the line that has been reached
    exact ⟨rfl, fun h => ⟨h.one_le_valueLine.trans h.valueLine_le, le_rfl, h.lines, h.ordered⟩⟩
  | leave => exact popMode_passes s _
  | openSelector =>
    obtain ⟨id, document, heq⟩ := State.openSelector_eq o s
    rw [heq]
    exact .quiet rfl rfl rfl
  | openAtBlock _ body =>
    obtain ⟨document, heq⟩ := State.openAtBlock_eq o s body
    rw [heq]
    exact .quiet rfl rfl rfl
  | closeBlock => exact closeBlock_passes s
  | endDeclaration => exact endDeclaration_passes s
  | endAtRule => exact endAtRule_passes s
  | _ => exact .quiet rfl rfl rfl

theorem Start.passes {t : State} {n : Nat} (h : Start o k c s t n) : Passes s t ((k.rest.drop 1).take n) := by
  cases h with
  | run h => exact readRun_passes (by rw [h]) (by rw [h]) (by rw [h])
  | comment h => exact readComment_passes s h
  | escape h => exact readEscape_passes h
  | _ => exact .quiet rfl rfl rfl

theorem Acts.passes {t : State} {n : Nat} (h : Acts o k c s t n) : Passes s t ((k.rest.drop 1).take n) := by
  induction h with
  | start h => exact h.passes
  | act _ hact ih => exact ih.behind hact.passes

/-! ## Runs -/

theorem countLine_passes (s : State) (c : Char) : Passes s (s.countLine c) [c] := by
  have hline : (s.countLine c).line = s.line + [c].count '\n' := by
    unfold State.countLine
    split
    · next hc => simp [beq_iff_eq.mp hc]
    · next hc => simp [count_cons, hc]
  obtain ⟨line, heq⟩ := s.countLine_eq c
  rw [heq] at hline ⊢
  exact .silent hline rfl rfl

/-- **A step** counts the line breaks that it passes. -/
theorem next_passes (o : Options) (r : Reader) :
    ∃ n, (r.next o).cursor = r.cursor.advance n ∧ Passes r.state (r.next o).state (r.cursor.rest.take n) := by
  by_cases hrest : r.cursor.rest = []
  · rw [next_of_nil hrest]
    exact ⟨0, rfl, .quiet rfl rfl rfl⟩
  refine next_cases
    (P := fun r' => ∃ n, r'.cursor = r.cursor.advance n ∧ Passes r.state r'.state (r.cursor.rest.take n))
    hrest ?_ ?_
  · exact fun _ => ⟨0, rfl, endAtRule_passes r.state⟩
  · intro c tail hcons _
    refine ⟨_, rfl, ?_⟩
    have hpasses := (countLine_passes r.state c).trans (step_acts o (r.state.countLine c) r.cursor c).passes
    rw [hcons] at hpasses ⊢
    exact hpasses

/-- The line of a reader is that of the next character, and its log is in order. -/
theorem after_dated (o : Options) (css : String) (n : Nat) :
    (after o css n).state.line = 1 + (after o css n).cursor.before.count '\n' ∧ Dated (after o css n).state := by
  refine after_induction (P := fun r => r.state.line = 1 + r.cursor.before.count '\n' ∧ Dated r.state) ?_ ?_ n
  · exact ⟨rfl, le_rfl, le_rfl, fun _ h => absurd h not_mem_nil, .nil⟩
  · rintro r - ⟨hline, hdated⟩
    obtain ⟨m, hcursor, hpasses⟩ := next_passes o r
    refine ⟨?_, hpasses.dated hdated⟩
    rw [hpasses.line, hline, hcursor, Cursor.advance, count_append, count_reverse]
    omega

theorem finish_passes (s : State) : Passes s (s.finish o) [] := by
  have hclosed : Passes s (s.finishString o).finishBracket [] := (finishBracket_acts o s ⟨[], []⟩ ' ').passes
  unfold State.finish State.finishWords
  split
  · exact hclosed.trans (endDeclaration_passes _)
  · exact hclosed.trans (endAtRule_passes _)
  · exact hclosed

/-- **Lines are exact.** In front of every step the line is one more than the number of line breaks in front of the
cursor, whatever was read so far. So the messages of the reader itself are in the order of their lines, and every
message about reading is about a line of the text. -/
theorem line_after (o : Options) (css : String) :
    (∀ n, (after o css n).state.line = 1 + ((sourceText css).take (after o css n).cursor.index).count '\n') ∧
    ((Document.read o css).2.filter (·.component == .parser)).Pairwise (fun m m' => m.line ≤ m'.line) ∧
    ∀ m ∈ (Document.read o css).2, 1 ≤ m.line ∧ m.line ≤ 1 + (sourceText css).count '\n' := by
  have hbefore (n : Nat) :
      (after o css n).cursor.before.count '\n' = ((sourceText css).take (after o css n).cursor.index).count '\n' := by
    rw [← text_after o css n, Cursor.text, Cursor.index, ← List.length_reverse, List.take_left, List.count_reverse]
  obtain ⟨n, hn⟩ := run_start_eq_after o css
  obtain ⟨hline, hdated⟩ := after_dated o css n
  have hpasses := finish_passes (o := o) (after o css n).state
  have hlog : (Document.read o css).2 = ((after o css n).state.finish o).log := by rw [← hn]; rfl
  have hend : ((after o css n).state.finish o).line ≤ 1 + (sourceText css).count '\n' := by
    rw [hpasses.line, hline, hbefore]
    exact Nat.add_le_add_left ((List.take_sublist _ _).count_le _) 1
  refine ⟨fun n => ?_, ?_, fun m hm => ?_⟩
  · rw [(after_dated o css n).1, hbefore]
  · rw [hlog]
    exact (hpasses.dated hdated).ordered
  · rw [hlog] at hm
    obtain ⟨hone, hle⟩ := (hpasses.dated hdated).lines m hm
    exact ⟨hone, hle.trans hend⟩

/-- Line breaks in a comment, in front of a word, in a string and behind an escape. -/
def manyBreaks : String := "/*\n*/a\x7bb:\n'c\n';d:\\65\n\x7d"

theorem line_after_manyBreaks :
    ⟨.parser, .information, 5, "Replaced unicode notation: changed \\65 to e"⟩ ∈ (Document.read {} manyBreaks).2 ∧
    5 ≤ 1 + (sourceText manyBreaks).count '\n' := by
  have hrun : run {} (start manyBreaks) = after {} manyBreaks 20 := run_start_eq (by decide +kernel)
  have hmem : ⟨.parser, .information, 5, "Replaced unicode notation: changed \\65 to e"⟩
      ∈ (Document.read {} manyBreaks).2 := by
    rw [Document.read, hrun]
    decide +kernel
  exact ⟨hmem, ((line_after {} manyBreaks).2.2 _ hmem).2⟩

end Reader

end Stylesheet
