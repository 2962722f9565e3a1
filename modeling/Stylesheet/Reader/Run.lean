import Stylesheet.Reader.Step

/-!
# Reading a stylesheet

Line ends are unified and a blank is put behind the text, which ends whatever word stands there. Then the
reader takes one step after the other until the text is used up.

Every step takes at least one character, but for one kind: a closing brace that meets an at-rule without a
body ends the rule, and is then read again as the end of the block around it. The measure of a reader counts
each character twice and an at-rule once, so that both kinds of steps make it smaller.
-/

namespace Stylesheet.Reader

/-- Makes every line end a line feed. -/
def unifyLines : List Char → List Char
  | [] => []
  | '\r' :: '\n' :: s => '\n' :: unifyLines s
  | c :: s => (if c == '\r' then '\n' else c) :: unifyLines s

/-- The text that is read for a stylesheet. -/
def sourceText (css : String) : List Char := unifyLines css.toList ++ [' ']

end Stylesheet.Reader

namespace Stylesheet

/-- A reader at some place of a text. -/
structure Reader where
  cursor : Text.Cursor
  state : Reader.State

namespace Reader

/-- A reader in front of a stylesheet. -/
def start (css : String) : Reader := ⟨.start (sourceText css), {}⟩

/-- The next character is a brace that ends an at-rule together with the block around it. -/
def atSharedBrace (r : Reader) : Bool :=
  r.state.mode = .atRule && r.cursor.rest.head? == some '}' && !r.cursor.escaped

/-- One step. -/
def next (o : Options) (r : Reader) : Reader :=
  match r.cursor.rest with
  | [] => r
  | c :: _ =>
    if r.atSharedBrace then ⟨r.cursor, r.state.endAtRule o⟩
    else
      let s := if c == '\n' then { r.state with line := r.state.line + 1 } else r.state
      let (s, taken) := s.step o r.cursor c
      ⟨r.cursor.advance (taken + 1), s⟩

/-- What is left to do. -/
def measure (r : Reader) : Nat :=
  2 * r.cursor.rest.length + if r.state.mode = .atRule then 1 else 0

theorem measure_next_lt (o : Options) (r : Reader) (h : r.cursor.rest ≠ []) :
    (r.next o).measure < r.measure := by
  obtain ⟨c, tail, hrest⟩ := List.exists_cons_of_ne_nil h
  unfold next
  rw [hrest]
  simp only
  split
  · next hbrace =>
    have hmode : r.state.mode = .atRule := by
      simp only [atSharedBrace, Bool.and_eq_true, decide_eq_true_eq] at hbrace
      exact hbrace.1.1
    have hbody : bodyMode r.state.origin ≠ .atRule := by cases r.state.origin <;> simp [bodyMode]
    simp [measure, State.endAtRule, hmode, hbody]
  · simp only [measure, Text.Cursor.advance, hrest, List.drop_succ_cons, List.length_cons,
      List.length_drop]
    split <;> split <;> omega

/-- Reads up to the end of the text. -/
def run (o : Options) (r : Reader) : Reader :=
  if _h : r.cursor.rest = [] then r else run o (r.next o)
termination_by r.measure
decreasing_by exact measure_next_lt o r _h

end Reader

/-- Reads a stylesheet: its document, and what is to be said about it. -/
def Document.read (o : Options) (css : String) : Document × List Message :=
  let s := ((Reader.start css).run o).state.finish o
  (s.document, s.log)

end Stylesheet
