import Stylesheet.Reader.Run
import Mathlib.Logic.Function.Iterate

/-!
# Runs of the reader

A run takes steps until the text is used up, and a step at the end of the text does nothing. So a run is a number
of steps, and what one step keeps, all of them keep (`after_induction`).
-/

namespace Stylesheet.Reader

variable {o : Options} {r : Reader}

/-! ## Steps -/

namespace State

/-- The state that takes note of the line break it passes. -/
def countLine (s : State) (c : Char) : State := if c == '\n' then { s with line := s.line + 1 } else s

theorem countLine_eq (s : State) (c : Char) : ∃ line, s.countLine c = { s with line } := by
  unfold countLine
  split
  · exact ⟨_, rfl⟩
  · exact ⟨s.line, rfl⟩

end State

theorem atSharedBrace_iff (r : Reader) :
    r.atSharedBrace = true ↔ r.state.mode = .atRule ∧ r.cursor.rest.head? = some '}' ∧ r.cursor.escaped = false := by
  simp [atSharedBrace, and_assoc]

/-- The two kinds of steps. -/
theorem next_cases {P : Reader → Prop} (hrest : r.cursor.rest ≠ [])
    (brace : r.atSharedBrace = true → P ⟨r.cursor, r.state.endAtRule o⟩)
    (step : ∀ c tail, r.cursor.rest = c :: tail → r.atSharedBrace = false →
      P ⟨r.cursor.advance (((r.state.countLine c).step o r.cursor c).2 + 1),
        ((r.state.countLine c).step o r.cursor c).1⟩) : P (r.next o) := by
  obtain ⟨c, tail, h⟩ := List.exists_cons_of_ne_nil hrest
  unfold next
  rw [h]
  simp only
  refine iteInduction (fun hbrace => brace hbrace) (fun hbrace => ?_)
  exact step c tail h (by simpa using hbrace)

theorem next_of_brace (h : r.atSharedBrace = true) : r.next o = ⟨r.cursor, r.state.endAtRule o⟩ := by
  have hrest : r.cursor.rest ≠ [] := by
    intro hnil
    simp [atSharedBrace, hnil] at h
  exact next_cases (P := (· = _)) hrest (fun _ => rfl) (fun _ _ _ hbrace => absurd h (by simp [hbrace]))

theorem next_of_cons {c : Char} {tail : List Char} (hcons : r.cursor.rest = c :: tail)
    (hbrace : r.atSharedBrace = false) :
    r.next o = ⟨r.cursor.advance (((r.state.countLine c).step o r.cursor c).2 + 1),
      ((r.state.countLine c).step o r.cursor c).1⟩ := by
  refine next_cases (P := (· = _)) (by simp [hcons]) (fun h => absurd h (by simp [hbrace])) (fun d tail' hcons' _ => ?_)
  cases hcons.symm.trans hcons'
  rfl

/-- A step over as many characters as it takes along. -/
theorem next_of_step {s t : State} {c : Char} {before more rest : List Char}
    (hbrace : atSharedBrace ⟨⟨before, c :: (more ++ rest)⟩, s⟩ = false)
    (hstep : (s.countLine c).step o ⟨before, c :: (more ++ rest)⟩ c = (t, more.length)) :
    Reader.next o ⟨⟨before, c :: (more ++ rest)⟩, s⟩ = ⟨⟨(c :: more).reverse ++ before, rest⟩, t⟩ := by
  rw [next_of_cons rfl hbrace, hstep]
  simp [Text.Cursor.advance]

/-- A step over one character. -/
theorem next_of_alone {s t : State} {c : Char} {before rest : List Char} (hmode : s.mode ≠ .atRule)
    (hstep : (s.countLine c).step o ⟨before, c :: rest⟩ c = (t, 0)) :
    Reader.next o ⟨⟨before, c :: rest⟩, s⟩ = ⟨⟨c :: before, rest⟩, t⟩ :=
  @next_of_step o s t c before [] rest (by simp [atSharedBrace, hmode]) hstep

/-- The reader in front of its step with the given number. -/
def after (o : Options) (css : String) (n : Nat) : Reader := (next o)^[n] (start css)

theorem after_zero (o : Options) (css : String) : after o css 0 = start css := rfl

theorem after_succ (o : Options) (css : String) (n : Nat) : after o css (n + 1) = (after o css n).next o :=
  Function.iterate_succ_apply' _ _ _

theorem next_of_nil (h : r.cursor.rest = []) : r.next o = r := by
  rw [next, h]

/-- What the steps in front of the end of the text keep, all of them keep. -/
theorem after_induction {css : String} {P : Reader → Prop} (hstart : P (start css))
    (hstep : ∀ r : Reader, r.cursor.rest ≠ [] → P r → P (r.next o)) (n : Nat) : P (after o css n) := by
  induction n with
  | zero => exact hstart
  | succ n ih =>
    rw [after_succ]
    by_cases h : (after o css n).cursor.rest = []
    · rw [next_of_nil h]
      exact ih
    · exact hstep _ h ih

/-! ## Runs -/

theorem run_of_nil (h : r.cursor.rest = []) : run o r = r := by
  rw [run, dif_pos h]

theorem run_next (o : Options) (r : Reader) : run o (r.next o) = run o r := by
  by_cases h : r.cursor.rest = []
  · rw [next_of_nil h]
  · rw [run.eq_1 o r, dif_neg h]

/-- A run ends at the end of the text. -/
theorem run_rest (o : Options) (r : Reader) : (run o r).cursor.rest = [] := by
  fun_induction run o r with
  | case1 r h => exact h
  | case2 r _ ih => exact ih

/-- A run is a number of steps. -/
theorem run_eq_iterate (o : Options) (r : Reader) : ∃ n, run o r = (next o)^[n] r := by
  fun_induction run o r with
  | case1 r h => exact ⟨0, rfl⟩
  | case2 r _ ih =>
    obtain ⟨n, hn⟩ := ih
    exact ⟨n + 1, by rw [hn, Function.iterate_succ_apply]⟩

theorem run_iterate (o : Options) (r : Reader) (n : Nat) : run o ((next o)^[n] r) = run o r := by
  induction n with
  | zero => rfl
  | succ n ih => rw [Function.iterate_succ_apply', run_next, ih]

theorem run_after (o : Options) (css : String) (n : Nat) : run o (after o css n) = run o (start css) :=
  run_iterate o (start css) n

/-- A run is over as soon as the text is used up. -/
theorem run_start_eq {css : String} {n : Nat} (h : (after o css n).cursor.rest = []) :
    run o (start css) = after o css n := by
  rw [← run_after o css n, run_of_nil h]

/-- Whatever is asked of a document can be asked behind the steps that use up the text. -/
theorem read_view {α : Type} (view : Document → α) (o : Options) (css : String) (n : Nat) {a : α}
    (hrest : (after o css n).cursor.rest = []) (h : view ((after o css n).state.finish o).document = a) :
    view (Document.read o css).1 = a := by
  unfold Document.read
  rw [run_start_eq hrest]
  exact h

/-- The run over a stylesheet ends in front of one of its steps. -/
theorem run_start_eq_after (o : Options) (css : String) : ∃ n, run o (start css) = after o css n :=
  run_eq_iterate o (start css)

end Stylesheet.Reader
