import Stylesheet.Reader.Step

/-!
# The cases of a step

In every mode the next character decides what a step does. For each mode there is one principle that lists the
cases, each with what is known about the character, what the step makes of the state, and how many more
characters it takes along. Facts about steps are shown case by case with these, and the steps themselves are not
looked into again.
-/

namespace Stylesheet.Reader.State

open Text

variable {o : Options} {k : Cursor} {c : Char} {s : State} {P : State → Nat → Prop}

/-! ## Tests of a step

What a step makes of the state is a large term, which is not to be evaluated when cases are told apart. So the
tests are taken apart without a look at what they choose between. -/

theorem pair_case {t : State} {n : Nat} (h : P t n) : P (t, n).1 (t, n).2 := h

theorem ite_case {p : Prop} [Decidable p] {x y : State × Nat} (hpos : p → P x.1 x.2)
    (hneg : ¬ p → P y.1 y.2) : P (if p then x else y).1 (if p then x else y).2 := by
  split
  · next h => exact hpos h
  · next h => exact hneg h

theorem char_case {d : Char} {t : State} {n : Nat} {y : State × Nat} (hpos : c = d → P t n) (hneg : c ≠ d → P y.1 y.2) :
    P (if c == d then (t, n) else y).1 (if c == d then (t, n) else y).2 :=
  ite_case (fun h => hpos (by simpa using h)) (fun h => hneg (by simpa using h))

theorem chars_case {d e : Char} {t : State} {n : Nat} {y : State × Nat} (hpos : c = d ∨ c = e → P t n)
    (hneg : c ≠ d ∧ c ≠ e → P y.1 y.2) :
    P (if c == d || c == e then (t, n) else y).1 (if c == d || c == e then (t, n) else y).2 :=
  ite_case (fun h => hpos (by simpa using h)) (fun h => hneg (by simpa using h))

/-! ## Names -/

/-- The cases of a step inside a selector. -/
theorem inSelector_cases (space : k.atToken = false → isSpace c = true → P s.spaceSelector 0)
    (run : k.atToken = false → isSpace c = false →
      P { s with selector := s.selector ++ (readRun k c).1 } (readRun k c).2)
    (comment : k.atToken = true → atComment k = true → P (s.readComment o k).1 (s.readComment o k).2)
    (brace : k.atToken = true → c = '{' → P (s.openSelector o) 0)
    (comma : k.atToken = true → c = ',' → P { s with selector := trim s.selector ++ "," } 0)
    (atSign : k.atToken = true → c = '@' → (trim s.selector).isEmpty = true →
      P { s with selector := "", origin := .rules, mode := .atRule } 0)
    (quote : k.atToken = true → c = '"' ∨ c = '\'' → P (s.beginString c (k.before.head? == some '=')) 0)
    (close : k.atToken = true → c = '}' → P { (s.closeBlock o).popMode .selector with selector := "" } 0)
    (escape : k.atToken = true → c = '\\' → ∀ text t n, s.readEscape o k = (text, t, n) →
      P { t with selector := t.selector ++ text } n)
    (universal : k.atToken = true → c = '*' → (k.rest.drop 1).head?.any ['.', '#', '[', ':'].contains = true →
      P (s.info "Removed redundant universal selector") 0)
    (other : k.atToken = true → P { s with selector := s.selector.push c } 0) :
    P (s.inSelector o k c).1 (s.inSelector o k c).2 := by
  unfold inSelector
  generalize s.readEscape o k = e at escape ⊢
  obtain ⟨text, t, taken⟩ := e
  refine ite_case (fun h => ?_) (fun h => ?_)
  · have htoken : k.atToken = false := by simpa using h
    refine ite_case (fun h => ?_) (fun h => ?_)
    · exact pair_case (space htoken h)
    · exact pair_case (run htoken (by simpa using h))
  have htoken : k.atToken = true := by simpa using h
  refine ite_case (fun h => comment htoken h) (fun _ => ?_)
  refine char_case (brace htoken) (fun _ => ?_)
  refine char_case (comma htoken) (fun _ => ?_)
  refine ite_case (fun h => ?_) (fun _ => ?_)
  · simp only [Bool.and_eq_true, beq_iff_eq] at h
    exact pair_case (atSign htoken h.1 h.2)
  refine chars_case (quote htoken) (fun _ => ?_)
  refine char_case (close htoken) (fun _ => ?_)
  refine char_case (fun h => escape htoken h text t taken rfl) (fun _ => ?_)
  refine ite_case (fun h => ?_) (fun _ => pair_case (other htoken))
  simp only [Bool.and_eq_true, beq_iff_eq] at h
  exact pair_case (universal htoken h.1 h.2)

/-- The cases of a step inside the name of a property. -/
theorem inProperty_cases (space : k.atToken = false → isSpace c = true → P s 0)
    (run : k.atToken = false → isSpace c = false →
      P { s with property := s.property ++ (readRun k c).1 } (readRun k c).2)
    (value : k.atToken = true → c = ':' ∨ c = '=' → (trim s.property).isEmpty = false →
      P ({ s with valueLine := s.line }.pushMode .value .property) 0)
    (comment : k.atToken = true → atComment k = true → P (s.readComment o k).1 (s.readComment o k).2)
    (close : k.atToken = true → c = '}' →
      P { (s.closeBlock o).popMode .selector with selector := "", property := "" } 0)
    (atSign : k.atToken = true → c = '@' → s.property.isEmpty = true →
      P { s with origin := .declarations, mode := .atRule } 0)
    (semicolon : k.atToken = true → c = ';' → P { s with property := "" } 0)
    (escape : k.atToken = true → c = '\\' → ∀ text t n, s.readEscape o k = (text, t, n) →
      P { t with property := t.property ++ text } n)
    (first : k.atToken = true → P { s with property := s.property.push c } 0) (other : k.atToken = true → P s 0) :
    P (s.inProperty o k c).1 (s.inProperty o k c).2 := by
  unfold inProperty
  generalize s.readEscape o k = e at escape ⊢
  obtain ⟨text, t, taken⟩ := e
  refine ite_case (fun h => ?_) (fun h => ?_)
  · have htoken : k.atToken = false := by simpa using h
    refine ite_case (fun h => ?_) (fun h => ?_)
    · exact pair_case (space htoken h)
    · exact pair_case (run htoken (by simpa using h))
  have htoken : k.atToken = true := by simpa using h
  refine ite_case (fun h => ?_) (fun _ => ?_)
  · simp only [Bool.and_eq_true, Bool.or_eq_true, beq_iff_eq, Bool.not_eq_true'] at h
    exact pair_case (value htoken h.1 h.2)
  refine ite_case (fun h => comment htoken h) (fun _ => ?_)
  refine char_case (close htoken) (fun _ => ?_)
  refine ite_case (fun h => ?_) (fun _ => ?_)
  · simp only [Bool.and_eq_true, beq_iff_eq] at h
    exact pair_case (atSign htoken h.1 h.2)
  refine char_case (semicolon htoken) (fun _ => ?_)
  refine char_case (fun h => escape htoken h text t taken rfl) (fun _ => ?_)
  exact ite_case (fun _ => pair_case (first htoken)) (fun _ => pair_case (other htoken))

/-! ## Values -/

/-- The cases of a step over space or ordinary characters. -/
theorem inWords_cases (space : isSpace c = true → P s.flushPart 0)
    (run : isSpace c = false → P { s with part := s.part ++ (readRun k c).1 } (readRun k c).2) :
    P (s.inWords k c).1 (s.inWords k c).2 := by
  unfold inWords
  refine ite_case (fun h => pair_case (space h)) (fun h => ?_)
  exact pair_case (run (by simpa using h))

/-- The cases of a step inside a value. -/
theorem inValue_cases (last : (k.rest.drop 1).isEmpty = true → P ((s.popMode .property).endDeclaration o) 0)
    (inferred : c = '\n' → propertyFollows (k.rest.drop 1) = true →
      P (((s.warn "Added semicolon to the end of declaration").popMode .property).endDeclaration o) 0)
    (words : k.atToken = false → k.rest.drop 1 ≠ [] → P (s.inWords k c).1 (s.inWords k c).2)
    (comment : k.atToken = true → atComment k = true → P (s.readComment o k).1 (s.readComment o k).2)
    (quote : k.atToken = true → c = '"' ∨ c = '\'' → P (s.beginString c false) 0)
    (bracket : k.atToken = true → c = '(' →
      P ({ s with function := s.part, part := s.part.push '(', depth := 1 }.pushMode .bracket .value) 0)
    (mark : k.atToken = true → c = ',' ∨ c = '!' →
      P { s.flushPart with parts := s.flushPart.parts ++ [String.singleton c] } 0)
    (escape : k.atToken = true → c = '\\' → ∀ text t n, s.readEscape o k = (text, t, n) →
      P { t with part := t.part ++ text } n)
    (semicolon : k.atToken = true → c = ';' → P ((s.popMode .property).endDeclaration o) 0)
    (close : k.atToken = true → c = '}' → P { State.popMode { (s.endDeclaration o).closeBlock o with
            returns := ((s.endDeclaration o).closeBlock o).returns.drop 1 } .selector with selector := "" } 0)
    (other : k.atToken = true → c ≠ '!' → c ≠ '\\' → c ≠ ';' → c ≠ '}' → P { s with part := s.part.push c } 0) :
    P (s.inValue o k c).1 (s.inValue o k c).2 := by
  unfold inValue
  generalize s.readEscape o k = e at escape ⊢
  obtain ⟨text, t, taken⟩ := e
  refine ite_case (fun h => pair_case (last h)) (fun hlast => ?_)
  have hrest : k.rest.drop 1 ≠ [] := by simpa using hlast
  refine ite_case (fun h => ?_) (fun _ => ?_)
  · simp only [Bool.and_eq_true, beq_iff_eq] at h
    exact pair_case (inferred h.1 h.2)
  refine ite_case (fun h => words (by simpa using h) hrest) (fun h => ?_)
  have htoken : k.atToken = true := by simpa using h
  refine ite_case (fun h => comment htoken h) (fun _ => ?_)
  refine chars_case (quote htoken) (fun _ => ?_)
  refine char_case (bracket htoken) (fun _ => ?_)
  refine chars_case (mark htoken) (fun hmark => ?_)
  refine char_case (fun h => escape htoken h text t taken rfl) (fun hescape => ?_)
  refine char_case (semicolon htoken) (fun hsemicolon => ?_)
  exact char_case (close htoken) (fun hclose => pair_case (other htoken hmark.2 hescape hsemicolon hclose))

/-- The cases of a step inside the arguments of a function. -/
theorem inBracket_cases (space : isSpace c = true → P (s.pushArgument ' ') 0)
    (run : isSpace c = false → P { s with part := s.part ++ (readRun k c).1 } (readRun k c).2)
    (quote : k.escaped = false → c = '"' ∨ c = '\'' → P (s.beginString c (s.function == "format")) 0)
    (deeper : k.escaped = false → c = '(' → P ({ s with depth := s.depth + 1 }.pushArgument c) 0)
    (close : k.escaped = false → c = ')' → s.depth - 1 = 0 →
      P { State.popMode ({ s with depth := s.depth - 1 }.pushArgument c) .value with function := "" } 0)
    (shallower : k.escaped = false → c = ')' → s.depth - 1 ≠ 0 → P ({ s with depth := s.depth - 1 }.pushArgument c) 0)
    (comma : k.escaped = false → c = ',' → P (s.pushArgument c) 0) :
    P (s.inBracket k c).1 (s.inBracket k c).2 := by
  unfold inBracket
  refine ite_case (fun h => pair_case (space h)) (fun hspace => ?_)
  refine ite_case (fun h => pair_case (run (by simpa using hspace))) (fun h => ?_)
  simp only [Bool.or_eq_true, Bool.not_eq_true', not_or, Bool.not_eq_true, Bool.not_eq_false, beq_iff_eq] at h
  obtain ⟨hescaped, hc⟩ := h
  refine chars_case (quote hescaped) (fun hquote => ?_)
  refine char_case (deeper hescaped) (fun hopen => ?_)
  refine ite_case (fun h => ?_) (fun hclose => pair_case (comma hescaped ?_))
  · have hdepth : (State.pushArgument { s with depth := s.depth - 1 } c).depth = s.depth - 1 := by
      unfold pushArgument
      simp only
      split
      · rfl
      · split <;> rfl
    simp only [hdepth]
    split
    · next hzero => exact close hescaped (by simpa using h) (by simpa using hzero)
    · next hzero => exact shallower hescaped (by simpa using h) (by simpa using hzero)
  · simp only [beq_iff_eq] at hclose
    simpa [hquote.1, hquote.2, hopen, hclose] using hc

/-- The cases of a step inside a string. -/
theorem inString_cases (newline : k.escaped = false → c = '\n' →
      P (({ s with string := s.string ++ "\\A " } : State).warn "Fixed incorrect newline in string") 0)
    (close : k.escaped = false → c = s.quote → P (({ s with string := s.string.push c } : State).closeString o) 0)
    (other : P { s with string := s.string.push c } 0) :
    P (s.inString o k c).1 (s.inString o k c).2 := by
  unfold inString
  refine ite_case (fun h => ?_) (fun _ => ?_)
  · simp only [Bool.and_eq_true, beq_iff_eq, Bool.not_eq_true'] at h
    exact pair_case (newline h.2 h.1)
  simp only
  split
  · next h =>
    simp only [Bool.and_eq_true, beq_iff_eq, Bool.not_eq_true'] at h
    exact close h.2 h.1
  · exact other

/-! ## At-rules -/

/-- The cases of a step inside an at-rule. -/
theorem inAtRule_cases (words : k.atToken = false → P (s.inWords k c).1 (s.inWords k c).2)
    (comment : k.atToken = true → atComment k = true → P (s.readComment o k).1 (s.readComment o k).2)
    (quote : k.atToken = true → c = '"' ∨ c = '\'' → P (s.beginString c true) 0)
    (bracket : k.atToken = true → c = '(' →
      P (({ s with function := s.part.push '(', part := s.part.push '(', depth := 1 } : State).pushMode
        .bracket .atRule) 0) (semicolon : k.atToken = true → c = ';' → P (s.endAtRule o) 0)
    (comma : k.atToken = true → c = ',' → P { s.flushPart with parts := s.flushPart.parts ++ [","] } 0)
    (brace : k.atToken = true → c = '{' → P (s.openAtBlock o (k.rest.drop 1)) 0)
    (escape : k.atToken = true → c = '\\' → ∀ text t n, s.readEscape o k = (text, t, n) →
      P { t with part := t.part ++ text } n) (other : k.atToken = true → c ≠ ';' → P { s with part := s.part.push c } 0) :
    P (s.inAtRule o k c).1 (s.inAtRule o k c).2 := by
  unfold inAtRule
  generalize s.readEscape o k = e at escape ⊢
  obtain ⟨text, t, taken⟩ := e
  refine ite_case (fun h => words (by simpa using h)) (fun h => ?_)
  have htoken : k.atToken = true := by simpa using h
  refine ite_case (fun h => comment htoken h) (fun _ => ?_)
  refine chars_case (quote htoken) (fun _ => ?_)
  refine char_case (bracket htoken) (fun _ => ?_)
  refine char_case (semicolon htoken) (fun hsemicolon => ?_)
  refine char_case (comma htoken) (fun _ => ?_)
  refine char_case (brace htoken) (fun _ => ?_)
  exact char_case (fun h => escape htoken h text t taken rfl) (fun _ => pair_case (other htoken hsemicolon))

end Stylesheet.Reader.State
