import Stylesheet.Proofs.Reader.Pieces
import Stylesheet.Proofs.Value.Bare

/-!
# Reading values without blanks

A value without blanks, strings, functions and escapes is read as its marks and the runs between them, as long as no
comment starts in it and nothing in it ends the declaration (`reads_bare`).
-/

namespace Stylesheet.Reader

open State List
open Text (isOrdinary isSpace isTokenChar IsWord)
open Value (isMark IsMark IsRun Alternate bareParts)
open String (join ofList)

variable {o : Options} {tail : List Char}

/-- A character that stands for itself in a value, or is a mark: no space, and nothing that opens, ends or escapes
anything. -/
def isBareChar (c : Char) : Bool := !isSpace c && !(['\r', '"', '\'', '(', '\\', ';', '}'].contains c)

theorem isBareChar_iff {c : Char} : isBareChar c = true ↔
    isSpace c = false ∧ c ≠ '\r' ∧ c ≠ '"' ∧ c ≠ '\'' ∧ c ≠ '(' ∧ c ≠ '\\' ∧ c ≠ ';' ∧ c ≠ '}' := by
  simp [isBareChar]

/-- A comment starts somewhere in the text. -/
def HoldsComment (text : List Char) : Prop := ['/', '*'] <:+: text

/-- In front of the first comment there is none. -/
theorem HoldsComment.exists_first {text : List Char} (h : HoldsComment text) :
    ∃ front back, text = front ++ '/' :: '*' :: back ∧ ¬ HoldsComment front := by
  obtain ⟨front, back, rfl⟩ := h
  -- the induction is on what stands in front of some comment
  induction hlength : front.length using Nat.strongRecOn generalizing front back with
  | ind n ih =>
    by_cases hfront : HoldsComment front
    · obtain ⟨left, right, rfl⟩ := hfront
      have hshort : left.length < n := by
        rw [← hlength]
        simp only [length_append, length_cons, length_nil]
        omega
      have hfirst := ih left.length hshort left (right ++ ['/', '*'] ++ back) rfl
      simpa using hfirst
    · exact ⟨front, back, by simp, hfront⟩

theorem atComment_eq {k : Text.Cursor} {c : Char} (hrest : k.rest = c :: tail) :
    atComment k = (c == '/' && tail.head? == some '*') := by
  cases tail with
  | nil => simp [atComment, hrest]
  | cons d tail => simp [atComment, hrest, Bool.beq_eq_decide_eq]

/-- A comment in a value is read at once. -/
theorem next_valueComment {s : State} (hmode : s.mode = .value) {before : List Char}
    (hbefore : Text.oddBackslashes before = false) (rest : List Char) :
    ∃ cursor body, next o ⟨⟨before, '/' :: '*' :: rest⟩, s⟩ = ⟨cursor, s.addComment o body⟩ := by
  have hshared : atSharedBrace ⟨⟨before, '/' :: '*' :: rest⟩, s⟩ = false := by simp [atSharedBrace, hmode]
  have hescaped : Text.Cursor.escaped ⟨before, '/' :: '*' :: rest⟩ = false := hbefore
  have htoken : Text.Cursor.atToken ⟨before, '/' :: '*' :: rest⟩ = true := (atToken_eq hescaped rfl).trans (by decide)
  have hcomment : atComment ⟨before, '/' :: '*' :: rest⟩ = true := (atComment_eq rfl).trans rfl
  have hcount : s.countLine '/' = s := rfl
  have hstep : s.step o ⟨before, '/' :: '*' :: rest⟩ '/' = s.readComment o ⟨before, '/' :: '*' :: rest⟩ := by
    rw [step_value hmode]
    simp [inValue, htoken, hcomment]
  rw [next_of_cons rfl hshared, hcount, hstep, readComment]
  cases cutComment? (drop 2 ('/' :: '*' :: rest)) with
  | none => exact ⟨_, _, rfl⟩
  | some body => exact ⟨_, _, rfl⟩

section Runs

variable {returns : List Mode} {frames : List Frame} {origin : Keyword.AtBody} {property : String} {parts : Value.Parts}

/-- A token that has no meaning in a value is part of a run. -/
theorem reads_value_token {c : Char} (htoken : isTokenChar c = true) (hbare : isBareChar c = true)
    (hmark : isMark c = false) (hcomment : c = '/' → tail.head? ≠ some '*') (htail : tail ≠ []) :
    Reads o tail { mode := .value, returns, frames, origin, property, parts } (ofList [c])
      { mode := .value, returns, frames, origin, property, parts := { parts with word := parts.word.push c } } := by
  obtain ⟨hspace, hreturn, hdouble, hsingle, hparen, hescape, hsemicolon, hbrace⟩ := isBareChar_iff.mp hbare
  simp only [isMark, Bool.or_eq_false_iff, beq_eq_false_iff_ne] at hmark
  obtain ⟨hcomma, hexclamation⟩ := hmark
  refine Reads.of_char hreturn hescape (by simp) fun s k hs hescaped hrest => ?_
  refine ⟨{ s with part := s.part.push c }, ?_, ?_⟩
  · have hatToken : k.atToken = true := (atToken_eq hescaped hrest).trans htoken
    have hstart : atComment k = false := by
      rw [atComment_eq hrest]
      simpa using hcomment
    have hnewline : c ≠ '\n' := by
      rintro rfl
      exact absurd hspace (by decide)
    rw [step_value hs.mode]
    simp [inValue, hrest, htail, hatToken, hstart, hnewline, hdouble, hsingle, hparen, hcomma, hexclamation, hescape,
      hsemicolon, hbrace]
  · exact ⟨hs.mode, hs.returns, hs.builds, by simp, hs.selector, hs.property, congrArg (·.push c) hs.word, hs.done,
      hs.headless⟩

/-- What stands behind a text neither goes on with a run nor makes a comment of a slash. -/
def EndsRun (tail : List Char) : Prop := Stops tail ∧ tail.head? ≠ some '*'

theorem EndsRun.of_cons {c : Char} {rest : List Char} (hordinary : isOrdinary c = false) (hc : c ≠ '*') :
    EndsRun (c :: rest) :=
  ⟨⟨c, rest, rfl, hordinary⟩, by simpa using hc⟩

/-- **A run is read** as one word, or as more of the word that stands in front of it. -/
theorem reads_run {run : List Char} (hbare : ∀ c ∈ run, isBareChar c = true) (hmark : ∀ c ∈ run, isMark c = false)
    (hcomment : ¬ HoldsComment run) (htail : EndsRun tail) :
    Reads o tail { mode := .value, returns, frames, origin, property, parts } (ofList run)
      { mode := .value, returns, frames, origin, property
        parts := { parts with word := parts.word ++ ofList run } } := by
  induction run generalizing parts with
  | nil =>
    rw [String.ofList_nil, String.append_empty]
    exact Reads.nil
  | cons c rest ih =>
    obtain ⟨hbareFirst, hbareRest⟩ := forall_mem_cons.mp hbare
    obtain ⟨hmarkFirst, hmarkRest⟩ := forall_mem_cons.mp hmark
    have hcommentRest : ¬ HoldsComment rest := fun hin => hcomment (hin.trans (suffix_cons c rest).isInfix)
    have hsingle : ofList (c :: rest) = ofList [c] ++ ofList rest := by
      rw [← String.ofList_append, singleton_append]
    rw [hsingle, ← String.append_assoc]
    refine Reads.append ?_ (@ih ⟨parts.word ++ ofList [c], parts.done⟩ hbareRest hmarkRest hcommentRest)
    by_cases hordinary : isOrdinary c = true
    · have hword : IsWord (ofList [c]) :=
        ⟨by simp, by simpa using hordinary, by simpa using (isBareChar_iff.mp hbareFirst).2.1.symm⟩
      exact reads_part_word (.inl rfl) hword (htail.1.exists_mem_append _)
    · have htoken : isTokenChar c = true := by simpa [isOrdinary, (isBareChar_iff.mp hbareFirst).1] using hordinary
      have hstar : c = '/' → (rest ++ tail).head? ≠ some '*' := by
        rintro rfl hhead
        cases rest with
        | nil => exact htail.2 hhead
        | cons d rest =>
          obtain rfl : d = '*' := by simpa using hhead
          exact hcomment (List.IsPrefix.isInfix ⟨rest, rfl⟩)
      rw [String.toList_ofList, ← String.singleton_eq_ofList, ← String.push_eq_append]
      exact reads_value_token htoken hbareFirst hmarkFirst hstar
        (append_ne_nil_of_right_ne_nil _ htail.1.ne_nil)

end Runs

/-! ## Marks and runs -/

/-- A run is finished as it is. -/
theorem all_of_isRun {run : String} (hne : run ≠ "") (hbare : ∀ c ∈ run.toList, isBareChar c = true)
    (done : List String) : Value.Parts.all ⟨run, done⟩ = done ++ [run] := by
  have hspace (c : Char) (hc : c ∈ run.toList) : isSpace c = false := (isBareChar_iff.mp (hbare c hc)).1
  have htrim : Text.trim run = run :=
    Text.trim_eq_self (fun c hc => hspace c (mem_of_mem_head? hc)) fun c hc => hspace c (mem_of_getLast? hc)
  exact Value.Parts.all_of_trim_eq hne htrim done

/-- Marks and runs are read one by one. A run needs an end in front of it. -/
theorem exists_reads_alternate {ps : List String} (h : Alternate ps)
    (hbare : ∀ part ∈ ps, ∀ c ∈ part.toList, isBareChar c = true) (hcomment : ∀ part ∈ ps, ¬ HoldsComment part.toList)
    (parts : Value.Parts) (hfirst : ∀ part ∈ ps.head?, IsRun part → parts.word = "") :
    ∃ parts' : Value.Parts, parts'.all = parts.all ++ ps ∧
      ∀ (o : Options) (tail : List Char) (returns : List Mode) (frames : List Frame) (property : String), EndsRun tail →
        Reads o tail { mode := .value, returns, frames, property, parts } (join ps)
          { mode := .value, returns, frames, property, parts := parts' } := by
  induction ps generalizing parts with
  | nil => exact ⟨parts, (append_nil _).symm, fun _ _ _ _ _ _ => Reads.nil⟩
  | cons part ps ih =>
    have hsub (p : String) (hp : p ∈ ps) : p ∈ part :: ps := mem_cons_of_mem _ hp
    have hrest : Alternate ps := ⟨fun p hp => h.kinds p (hsub p hp), h.apart.tail⟩
    have hjoin : join (part :: ps) = part ++ join ps := by
      apply String.toList_injective
      simp [String.toList_join]
    rcases h.kinds part mem_cons_self with hmark | hrun
    · obtain ⟨parts', hall, hread⟩ := ih hrest (fun p hp => hbare p (hsub p hp)) (fun p hp => hcomment p (hsub p hp))
        { done := parts.all ++ [part] } fun _ _ _ => rfl
      refine ⟨parts', ?_, fun o tail returns frames property htail => ?_⟩
      · rw [hall, Value.Parts.all_of_empty, append_assoc, singleton_append]
      · have hne : (join ps).toList ++ tail ≠ [] := append_ne_nil_of_right_ne_nil _ htail.1.ne_nil
        have hchar : ∃ c, (c = ',' ∨ c = '!') ∧ part = ofList [c] := by
          rcases hmark with rfl | rfl
          · exact ⟨',', .inl rfl, rfl⟩
          · exact ⟨'!', .inr rfl, rfl⟩
        obtain ⟨c, hc, rfl⟩ := hchar
        rw [hjoin]
        exact (reads_value_mark hc hne).append (hread o tail returns frames property htail)
    · have hempty : parts.word = "" := hfirst part rfl hrun
      -- the next part is a mark, if there is one
      have hmarks : ∀ next ∈ ps.head?, IsMark next := by
        intro next hnext
        exact ((isChain_cons.mp h.apart).1 next hnext).resolve_left fun hmark => hmark.not_isRun hrun
      obtain ⟨parts', hall, hread⟩ := ih hrest (fun p hp => hbare p (hsub p hp)) (fun p hp => hcomment p (hsub p hp))
        { parts with word := parts.word ++ part } fun next hnext hrun' => absurd hrun' (hmarks next hnext).not_isRun
      have hbarePart := hbare part mem_cons_self
      refine ⟨parts', ?_, fun o tail returns frames property htail => ?_⟩
      · have hbefore : parts.all = parts.done := by
          obtain ⟨word, done⟩ := parts
          obtain rfl : word = "" := hempty
          exact Value.Parts.all_of_empty done
        rw [hall, hbefore, hempty, String.empty_append, all_of_isRun hrun.ne_empty hbarePart, append_assoc,
          singleton_append]
      · have hend : EndsRun ((join ps).toList ++ tail) := by
          cases ps with
          | nil => exact htail
          | cons next ps =>
            obtain ⟨c, hc, hcmark⟩ := (hmarks next rfl).exists_singleton
            rw [String.toList_join, flatMap_cons, hc]
            refine EndsRun.of_cons ?_ ?_
            · simp only [isMark, Bool.or_eq_true, beq_iff_eq] at hcmark
              rcases hcmark with rfl | rfl <;> decide
            · rintro rfl
              exact absurd hcmark (by decide)
        have hpart : Reads o ((join ps).toList ++ tail) { mode := .value, returns, frames, property, parts }
            (ofList part.toList)
            { mode := .value, returns, frames, property
              parts := { parts with word := parts.word ++ ofList part.toList } } :=
          reads_run hbarePart hrun.chars (hcomment part mem_cons_self) hend
        rw [String.ofList_toList] at hpart
        rw [hjoin]
        exact hpart.append (hread o tail returns frames property htail)

/-- **A value without blanks** is read as its marks and runs. -/
theorem exists_reads_bare {text : String} (hbare : ∀ c ∈ text.toList, isBareChar c = true)
    (hcomment : ¬ HoldsComment text.toList) :
    ∃ parts : Value.Parts, parts.all = bareParts text ∧
      ∀ (o : Options) (tail : List Char) (returns : List Mode) (frames : List Frame) (property : String), EndsRun tail →
        Reads o tail { mode := .value, returns, frames, property } text
          { mode := .value, returns, frames, property, parts } := by
  obtain ⟨parts, hall, hread⟩ := exists_reads_alternate (Value.alternate_bareParts text)
    (fun part hpart c hc => hbare c ((Value.infix_of_mem_bareParts hpart).subset hc))
    (fun part hpart hholds => hcomment (hholds.trans (Value.infix_of_mem_bareParts hpart))) {} fun _ _ _ => rfl
  rw [Value.join_bareParts] at hread
  rw [Value.Parts.all_of_empty, nil_append] at hall
  exact ⟨parts, hall, hread⟩

end Stylesheet.Reader
