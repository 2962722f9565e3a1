import Stylesheet.Proofs.Reader.Compose
import Stylesheet.Proofs.Reader.Taken

/-!
# Reading by index

A cursor cannot leave its text. `Indexed.run` reads a text without one: a place is a number, every look at a character
and every cut from the text names the places it is about, and what is not there makes the whole run fail. So does a step
back from the first place.

It never fails (`indexed_next`), and it does the same as the reader, place by place. In one case only a step stays where
it is, at a brace that ends an at-rule together with the block around it; the next step then passes that brace.
-/

namespace Stylesheet

open Reader (State Mode)
open Option

namespace Indexed

open Text (Cursor)

/-! ## Places -/

/-- The characters from one place up to another. -/
def slice (text : List Char) (start stop : Nat) : Option (List Char) :=
  if start ≤ stop ∧ stop ≤ text.length then some ((text.take stop).drop start) else none

/-- The place in front of another one. -/
def back : Nat → Option Nat
  | 0 => none
  | i + 1 => some i

/-- The first of `n` places from `i` on that passes a test. -/
def find (text : List Char) (p : Nat → Char → Bool) : Nat → Nat → Option (Option Nat)
  | _, 0 => some none
  | i, n + 1 => do
    let c ← text[i]?
    if p i c then return some i else find text p (i + 1) n

/-- A comment starts at a place. -/
def startsComment (text : List Char) (i : Nat) : Option Bool := do
  let c ← text[i]?
  return c == '/' && text[i + 1]? == some '*'

/-- An equals sign stands in front of a place. -/
def behindEquals (text : List Char) (i : Nat) : Option Bool :=
  if i == 0 then some false
  else do
    let c ← text[← back i]?
    return c == '='

/-- The character at a place is a line break that ends a declaration, since a property follows. -/
def breakEnds (text : List Char) (i : Nat) (c : Char) : Option Bool :=
  if c == '\n' then do
    let rest ← slice text (min (i + 1) text.length) text.length
    return State.propertyFollows rest
  else some false

/-! ## Comments, escapes and runs

All of these say what has been read and which place was the last. -/

/-- The run of ordinary characters at a place, or the character there alone. -/
def readRun (text : List Char) (i : Nat) (c : Char) : Option (String × Nat) :=
  let n := (Cursor.atIndex text i).ordinaryRun.length
  if n == 0 then some (String.singleton c, i)
  else do
    let run ← slice text i (i + n)
    return (String.ofList run, ← back (i + n))

/-- Where the digits end that start at a place. At most `n` of them count. -/
def digitsEnd (text : List Char) : Nat → Nat → Nat
  | i, 0 => i
  | i, n + 1 => if text[i]?.any Char.isHexDigit then digitsEnd text (i + 1) n else i

/-- The last place of the escape whose backslash stands at the place `b`. -/
def escapeLast (text : List Char) (b : Nat) : Option Nat := do
  let i := digitsEnd text (b + 1) Text.Escape.maxDigits
  let digits ← slice text (b + 1) i
  let named := (Char.ofNat (Text.Escape.codeOf digits)).isAlphanum
  let runsOn := text[i + 1]?.any Char.isHexDigit && !named
  if text[i]?.any Text.isSpace && !runsOn then return i else back i

/-- Reads an escape. -/
def readEscape (o : Options) (text : List Char) (i : Nat) (s : State) : Option (String × State × Nat) := do
  let last ← escapeLast text i
  let taken ← slice text (i + 1) (max last i + 1)
  let e := Text.Escape.read o.removeBackslash (text.drop (i + 1))
  let s := { s with line := s.line + taken.count '\n' }
  let s :=
    match e.change with
    | some change => s.info (State.escapeText change)
    | none => s
  return (e.text, s, max last i)

/-- Reads a comment. One without an end leaves the last character of the text. -/
def readComment (o : Options) (text : List Char) (i : Nat) (s : State) : Option (State × Nat) := do
  let start := i + 2
  match ← find text (fun j c => c == '*' && text[j + 1]? == some '/') start (text.length - 1 - start) with
  | some stop => return (s.addComment o (← slice text start stop), stop + 1)
  | none =>
    let stop := max (text.length - 1) start
    return (s.addComment o (← slice text (min start stop) stop), stop - 1)

/-! ## Modes -/

/-- The character at a place is the wanted one, and not escaped. -/
def isFree (text : List Char) (wanted : Char) (i : Nat) (c : Char) : Bool :=
  c == wanted && !(Cursor.atIndex text i).escaped

/-- What the body of an at-rule holds that opens at a place. -/
def bodyOf (text : List Char) (i : Nat) (parts : List String) : Option Keyword.AtBody :=
  match parts.head?.bind Keyword.atBody? with
  | some kind => some kind
  | none => do
    let colon ← find text (isFree text ':') (i + 1) (text.length - (i + 1))
    let brace ← find text (isFree text '{') (i + 1) (text.length - (i + 1))
    match colon, brace with
    | none, _ => return .rules
    | some _, none => return .declarations
    | some colon, some brace => return if colon < brace then .declarations else .rules

/-- A step inside a selector. -/
def inSelector (o : Options) (text : List Char) (i : Nat) (c : Char) (s : State) : Option (State × Nat) :=
  if !(Cursor.atIndex text i).atToken then
    if Text.isSpace c then some (s.spaceSelector, i)
    else do
      let (run, last) ← readRun text i c
      return ({ s with selector := s.selector ++ run }, last)
  else do
    if ← startsComment text i then readComment o text i s
    else if c == '"' || c == '\'' then return (s.beginString c (← behindEquals text i), i)
    else if c == '\\' then
      let (escape, s, last) ← readEscape o text i s
      return ({ s with selector := s.selector ++ escape }, last)
    else return ((s.inSelector o (Cursor.atIndex text i) c).1, i)

/-- A step inside the name of a property. -/
def inProperty (o : Options) (text : List Char) (i : Nat) (c : Char) (s : State) : Option (State × Nat) :=
  if !(Cursor.atIndex text i).atToken then
    if Text.isSpace c then some (s, i)
    else do
      let (run, last) ← readRun text i c
      return ({ s with property := s.property ++ run }, last)
  else do
    if ← startsComment text i then readComment o text i s
    else if c == '\\' then
      let (escape, s, last) ← readEscape o text i s
      return ({ s with property := s.property ++ escape }, last)
    else return ((s.inProperty o (Cursor.atIndex text i) c).1, i)

/-- A step over space or ordinary characters inside a value or an at-rule. -/
def inWords (text : List Char) (i : Nat) (c : Char) (s : State) : Option (State × Nat) :=
  if Text.isSpace c then some (s.flushPart, i)
  else do
    let (run, last) ← readRun text i c
    return ({ s with part := s.part ++ run }, last)

/-- A step inside a value. -/
def inValue (o : Options) (text : List Char) (i : Nat) (c : Char) (s : State) : Option (State × Nat) :=
  if i + 1 == text.length then some ((s.popMode .property).endDeclaration o, i)
  else do
    if ← breakEnds text i c then
      let s := s.warn "Added semicolon to the end of declaration"
      return ((s.popMode .property).endDeclaration o, i)
    else if !(Cursor.atIndex text i).atToken then inWords text i c s
    else if ← startsComment text i then readComment o text i s
    else if c == '\\' then
      let (escape, s, last) ← readEscape o text i s
      return ({ s with part := s.part ++ escape }, last)
    else return ((s.inValue o (Cursor.atIndex text i) c).1, i)

/-- A step inside the arguments of a function. -/
def inBracket (text : List Char) (i : Nat) (c : Char) (s : State) : Option (State × Nat) :=
  let free := Text.isSpace c
    || !(Cursor.atIndex text i).escaped && (c == '"' || c == '\'' || c == '(' || c == ')' || c == ',')
  if free then some ((s.inBracket (Cursor.atIndex text i) c).1, i)
  else do
    let (run, last) ← readRun text i c
    return ({ s with part := s.part ++ run }, last)

/-- A step inside an at-rule. From a closing brace it goes one place back, so that the brace is read again. -/
def inAtRule (o : Options) (text : List Char) (i : Nat) (c : Char) (s : State) : Option (State × Nat) :=
  if !(Cursor.atIndex text i).atToken then inWords text i c s
  else do
    if ← startsComment text i then readComment o text i s
    else if c == '{' then
      let body ← bodyOf text i s.flushPart.parts
      return ({ s.openAtBlock o (text.drop (i + 1)) with mode := Reader.bodyMode body }, i)
    else if c == '}' then return (s.endAtRule o, ← back i)
    else if c == '\\' then
      let (escape, s, last) ← readEscape o text i s
      return ({ s with part := s.part ++ escape }, last)
    else return ((s.inAtRule o (Cursor.atIndex text i) c).1, i)

/-- A step in the current mode: the state behind it, and the last place it has read. -/
def step (o : Options) (text : List Char) (i : Nat) (c : Char) (s : State) : Option (State × Nat) :=
  match s.mode with
  | .selector => inSelector o text i c s
  | .property => inProperty o text i c s
  | .value => inValue o text i c s
  | .string => some ((s.inString o (Cursor.atIndex text i) c).1, i)
  | .bracket => inBracket text i c s
  | .atRule => inAtRule o text i c s

/-- One step: the place and the state behind it. -/
def next (o : Options) (text : List Char) (i : Nat) (s : State) : Option (Nat × State) := do
  let c ← text[i]?
  let (s, last) ← step o text i c (s.countLine c)
  return (last + 1, s)

/-- Reads as long as there is a character at the place, in at most the given number of steps. -/
def run (o : Options) (text : List Char) : Nat → Nat → State → Option (Nat × State)
  | 0, i, s => if i < text.length then none else some (i, s)
  | n + 1, i, s =>
    if i < text.length then do
      let (i, s) ← next o text i s
      run o text n i s
    else some (i, s)

end Indexed

namespace Reader

open Text (Cursor)
open Indexed (slice back find)
open List

variable {n : Nat} {r : Reader}
variable {o : Options} {s : State} {text : List Char} {i : Nat} {c : Char}

/-! ## Places that are there -/

theorem slice_eq {start stop : Nat} (h : start ≤ stop) (hstop : stop ≤ text.length) :
    slice text start stop = some ((text.drop start).take (stop - start)) := by
  rw [slice, if_pos ⟨h, hstop⟩, drop_take]

theorem back_eq (h : 0 < i) : back i = some (i - 1) := by
  cases i with
  | zero => exact absurd h (by decide)
  | succ i => rfl

theorem drop_of_getElem? (h : text[i]? = some c) : text.drop i = c :: text.drop (i + 1) := by
  obtain ⟨hlt, rfl⟩ := List.getElem?_eq_some_iff.mp h
  exact drop_eq_getElem_cons hlt

theorem find_succ (p : Nat → Char → Bool) (h : text[i]? = some c) (n : Nat) :
    find text p i (n + 1) = if p i c then some (some i) else find text p (i + 1) n := by
  rw [find, h]
  rfl

/-- A search in front of the end does not fail, and does not find anything in front of its start. -/
theorem exists_find (p : Nat → Char → Bool) (h : i + n ≤ text.length) :
    ∃ found, find text p i n = some found ∧ ∀ j ∈ found, i ≤ j := by
  induction n generalizing i with
  | zero => exact ⟨none, rfl, fun _ hj => absurd hj (by simp)⟩
  | succ n ih =>
    have hget : text[i]? = some text[i] := getElem?_eq_getElem (by omega)
    obtain ⟨found, hfound, hle⟩ := ih (i := i + 1) (by omega)
    rw [find_succ p hget]
    split
    · exact ⟨some i, rfl, by simp⟩
    · exact ⟨found, hfound, fun j hj => Nat.le_of_succ_le (hle j hj)⟩

theorem indexed_startsComment (h : text[i]? = some c) :
    Indexed.startsComment text i = some (State.atComment (Cursor.atIndex text i)) := by
  have hnext : (text.drop (i + 1)).take 1 = text[i + 1]?.toList := by
    rw [take_one, head?_drop]
  rw [Indexed.startsComment, h, State.atComment, Cursor.atIndex, drop_of_getElem? h, take_succ_cons, hnext]
  cases text[i + 1]? with
  | none => rfl
  | some d => simp

theorem indexed_behindEquals (h : text[i]? = some c) :
    Indexed.behindEquals text i = some ((Cursor.atIndex text i).before.head? == some '=') := by
  obtain ⟨hlt, -⟩ := List.getElem?_eq_some_iff.mp h
  unfold Indexed.behindEquals
  rcases Nat.eq_zero_or_pos i with rfl | hpos
  · rfl
  · have hget : text[i - 1]? = some text[i - 1] := getElem?_eq_getElem (by omega)
    have hlast : (text.take i).getLast? = some text[i - 1] := by
      rw [getLast?_take, if_neg (by omega), hget, some_or]
    have hne : (i == 0) = false := by simpa using Nat.ne_of_gt hpos
    rw [hne, back_eq hpos, Cursor.atIndex, head?_reverse, hlast]
    simp [hget]

theorem indexed_breakEnds (h : text[i]? = some c) :
    Indexed.breakEnds text i c
      = some (c == '\n' && State.propertyFollows ((Cursor.atIndex text i).rest.drop 1)) := by
  obtain ⟨hlt, -⟩ := List.getElem?_eq_some_iff.mp h
  have hmin : min (i + 1) text.length = i + 1 := by omega
  have hall : (text.drop (i + 1)).take (text.length - (i + 1)) = text.drop (i + 1) :=
    take_of_length_le (by rw [length_drop])
  rw [Indexed.breakEnds, hmin, slice_eq hlt le_rfl, hall, Cursor.atIndex, drop_drop]
  cases c == '\n' <;> rfl

/-! ## What is read is there -/

theorem indexed_readRun (h : text[i]? = some c) :
    Indexed.readRun text i c
      = some ((State.readRun (Cursor.atIndex text i) c).1, i + (State.readRun (Cursor.atIndex text i) c).2) := by
  obtain ⟨hlt, -⟩ := List.getElem?_eq_some_iff.mp h
  have hrun : (Cursor.atIndex text i).ordinaryRun <+: text.drop i := takeWhile_prefix _
  have hle : (Cursor.atIndex text i).ordinaryRun.length ≤ text.length - i := by
    simpa using hrun.length_le
  unfold Indexed.readRun State.readRun
  generalize (Cursor.atIndex text i).ordinaryRun = run at hrun hle
  cases run with
  | nil => rfl
  | cons d run =>
    have htake : (text.drop i).take (i + (d :: run).length - i) = d :: run := by
      rw [Nat.add_sub_cancel_left]
      exact (prefix_iff_eq_take.mp hrun).symm
    have hslice : slice text i (i + (d :: run).length) = some (d :: run) := by
      rw [slice_eq (Nat.le_add_right _ _) (by omega), htake]
    simp only [hslice]
    rfl

theorem digitsEnd_eq (text : List Char) (i n : Nat) :
    Indexed.digitsEnd text i n = i + (((text.drop i).takeWhile Char.isHexDigit).take n).length := by
  induction n generalizing i with
  | zero => rfl
  | succ n ih =>
    unfold Indexed.digitsEnd
    cases hget : text[i]? with
    | none => simp [getElem?_eq_none_iff.mp hget]
    | some c =>
      rw [any_some, drop_of_getElem? hget, takeWhile_cons]
      split
      · rw [ih, take_succ_cons, length_cons, Nat.add_right_comm, Nat.add_assoc]
      · rfl

/-- The last place of an escape is in the text, and not in front of its backslash. -/
theorem indexed_escapeLast {b : Nat} (h : b < text.length) :
    Indexed.escapeLast text b = some (b + Text.Escape.takenLength (text.drop (b + 1))) := by
  unfold Indexed.escapeLast Text.Escape.takenLength
  have hdigits := Text.Escape.digitsOf_eq_take (text.drop (b + 1))
  have hend : Indexed.digitsEnd text (b + 1) Text.Escape.maxDigits
      = b + 1 + (Text.Escape.digitsOf (text.drop (b + 1))).length := digitsEnd_eq _ _ _
  have hle := Text.Escape.length_digitsOf_le (text.drop (b + 1))
  rw [length_drop] at hle
  have hslice : slice text (b + 1) (b + 1 + (Text.Escape.digitsOf (text.drop (b + 1))).length)
      = some (Text.Escape.digitsOf (text.drop (b + 1))) := by
    rw [slice_eq (Nat.le_add_right _ _) (by omega), Nat.add_sub_cancel_left, ← hdigits]
  simp only [hend, hslice, bind_eq_bind, bind_some, Text.Escape.named, drop_drop, head?_drop]
  split
  · rw [Nat.add_right_comm, Nat.add_assoc]
    rfl
  · rw [back_eq (by omega), Nat.add_right_comm, Nat.add_sub_cancel]

theorem indexed_readEscape (h : text[i]? = some c) :
    Indexed.readEscape o text i s
      = some ((s.readEscape o (Cursor.atIndex text i)).1, (s.readEscape o (Cursor.atIndex text i)).2.1,
          i + (s.readEscape o (Cursor.atIndex text i)).2.2) := by
  obtain ⟨hlt, -⟩ := List.getElem?_eq_some_iff.mp h
  have htaken := Text.Escape.takenLength_le (text.drop (i + 1))
  rw [length_drop] at htaken
  unfold Indexed.readEscape State.readEscape
  rw [indexed_escapeLast hlt]
  simp only [bind_eq_bind, bind_some, Cursor.atIndex, drop_drop, Text.Escape.length_read]
  have hmax : max (i + Text.Escape.takenLength (text.drop (i + 1))) i
      = i + Text.Escape.takenLength (text.drop (i + 1)) := by
    omega
  rw [hmax, slice_eq (by omega) (by omega), Nat.add_right_comm, Nat.add_sub_cancel_left]
  rfl

theorem cutComment?_cons {s : List Char} (h : ¬ (c = '*' ∧ s.head? = some '/')) :
    State.cutComment? (c :: s) = (State.cutComment? s).map (c :: ·) := by
  rw [State.cutComment?]
  rintro rest rfl rfl
  exact h ⟨rfl, rfl⟩

/-- The search for the end of a comment. -/
theorem find_commentEnd (text : List Char) (start : Nat) :
    find text (fun j c => c == '*' && text[j + 1]? == some '/') start (text.length - 1 - start)
      = some ((State.cutComment? (text.drop start)).map (start + ·.length)) := by
  generalize hn : text.length - 1 - start = n
  induction n generalizing start with
  | zero =>
    have hlength : (text.drop start).length ≤ 1 := by rw [length_drop]; omega
    match hdrop : text.drop start with
    | [] => rfl
    | [c] => simp [find, State.cutComment?]
    | c :: d :: rest => simp [hdrop] at hlength
  | succ n ih =>
    have hget : text[start]? = some text[start] := getElem?_eq_getElem (by omega)
    have hget' : text[start + 1]? = some text[start + 1] := getElem?_eq_getElem (by omega)
    rw [find_succ _ hget, drop_of_getElem? hget]
    split
    · next hend =>
      rw [drop_of_getElem? hget']
      simp only [hget', Bool.and_eq_true, beq_iff_eq, some.injEq] at hend
      rw [hend.1, hend.2]
      rfl
    · next hend =>
      rw [cutComment?_cons (by simpa [head?_drop] using hend), ih (start + 1) (by omega)]
      simp [Option.map_map, Function.comp_def, Nat.add_assoc, Nat.add_comm 1]

theorem indexed_readComment (hcomment : State.atComment (Cursor.atIndex text i) = true) :
    Indexed.readComment o text i s
      = some ((s.readComment o (Cursor.atIndex text i)).1, i + (s.readComment o (Cursor.atIndex text i)).2) := by
  obtain ⟨body, hbody⟩ := exists_body hcomment
  have hdrop : text.drop i = '/' :: '*' :: body := hbody
  have hbehind : text.drop (i + 2) = body := by rw [← drop_drop, hdrop]; rfl
  have hlength : text.length = i + 2 + body.length := by
    have := congrArg length hdrop
    simp only [length_drop, length_cons] at this
    omega
  unfold Indexed.readComment State.readComment
  simp only [find_commentEnd, hbody, hbehind, List.drop_succ_cons, List.drop_zero]
  cases hcut : State.cutComment? body with
  | some found =>
    obtain ⟨more, hmore⟩ := eq_of_cutComment? hcut
    have hle : i + 2 + found.length ≤ text.length := by rw [hlength, hmore]; simp
    simp only [map_some, bind_eq_bind, bind_some, slice_eq (Nat.le_add_right _ _) hle, Nat.add_sub_cancel_left, hbehind]
    rw [hmore, take_left]
    simp [Nat.add_assoc, Nat.add_comm 2]
  | none =>
    have hmin : min (i + 2) (max (text.length - 1) (i + 2)) = i + 2 := by omega
    have htaken : max (text.length - 1) (i + 2) - (i + 2) = body.length - 1 := by omega
    have hlast : max (text.length - 1) (i + 2) - 1 = i + (body.length - 1 + 1) := by omega
    simp only [map_none, bind_eq_bind, bind_some, hmin, slice_eq (Nat.le_max_right _ _) (by omega : max (text.length -
      1) (i + 2) ≤ text.length), hbehind, htaken, hlast, ← dropLast_eq_take, length_dropLast]
    rfl

/-! ## The body of an at-rule -/

theorem escaped_atIndex_succ (h : text[i]? = some c) :
    (Cursor.atIndex text (i + 1)).escaped = (c == '\\' && !(Cursor.atIndex text i).escaped) := by
  obtain ⟨hlt, rfl⟩ := List.getElem?_eq_some_iff.mp h
  rw [Cursor.escaped, Cursor.atIndex, take_add_one, h, toList_some, reverse_append]
  exact Text.oddBackslashes_cons _ _

/-- Looking for the first free colon and for the first free brace tells which of them comes first. -/
theorem colonFirst_iff_find (hi : i ≤ text.length) :
    ∃ colon brace, find text (Indexed.isFree text ':') i (text.length - i) = some colon ∧
      find text (Indexed.isFree text '{') i (text.length - i) = some brace ∧
      (State.colonFirst (Cursor.atIndex text i).escaped (text.drop i) = true ↔ ∃ j ∈ colon, ∀ j' ∈ brace, j < j') := by
  generalize hn : text.length - i = n
  induction n generalizing i with
  | zero =>
    refine ⟨none, none, rfl, rfl, ?_⟩
    rw [drop_of_length_le (by omega)]
    simp [State.colonFirst]
  | succ n ih =>
    have hget : text[i]? = some text[i] := getElem?_eq_getElem (by omega)
    have hend : i + 1 + n ≤ text.length := by omega
    obtain ⟨colon, brace, hcolon, hbrace, hiff⟩ := ih (i := i + 1) (by omega) (by omega)
    rw [find_succ _ hget, find_succ _ hget, hcolon, hbrace, drop_of_getElem? hget]
    by_cases hcolonHere : Indexed.isFree text ':' i text[i] = true
    · obtain ⟨hc, hfree⟩ : text[i] = ':' ∧ (Cursor.atIndex text i).escaped = false := by
        simpa [Indexed.isFree] using hcolonHere
      obtain ⟨found, hfound, hle⟩ := exists_find (Indexed.isFree text '{') hend
      cases hbrace.symm.trans hfound
      refine ⟨some i, brace, if_pos hcolonHere, if_neg (by simp [Indexed.isFree, hc]), ?_⟩
      simpa [State.colonFirst, hc, hfree, Nat.succ_le_iff] using hle
    by_cases hbraceHere : Indexed.isFree text '{' i text[i] = true
    · obtain ⟨hc, hfree⟩ : text[i] = '{' ∧ (Cursor.atIndex text i).escaped = false := by
        simpa [Indexed.isFree] using hbraceHere
      obtain ⟨found, hfound, hle⟩ := exists_find (Indexed.isFree text ':') hend
      cases hcolon.symm.trans hfound
      refine ⟨colon, some i, if_neg hcolonHere, if_pos hbraceHere, ?_⟩
      simpa [State.colonFirst, hc, hfree] using fun j hj => Nat.le_of_succ_le (hle j hj)
    refine ⟨colon, brace, if_neg hcolonHere, if_neg hbraceHere, ?_⟩
    rw [← hiff, escaped_atIndex_succ hget, State.colonFirst, if_neg, if_neg]
    · simpa [Indexed.isFree, and_comm] using hbraceHere
    · simpa [Indexed.isFree, and_comm] using hcolonHere

theorem indexed_bodyOf (h : text[i]? = some '{') (parts : List String) :
    Indexed.bodyOf text i parts = some (State.bodyOf parts (text.drop (i + 1))) := by
  obtain ⟨hlt, -⟩ := List.getElem?_eq_some_iff.mp h
  obtain ⟨colon, brace, hcolon, hbrace, hiff⟩ := colonFirst_iff_find (Nat.succ_le_of_lt hlt)
  have hfree : (Cursor.atIndex text (i + 1)).escaped = false := by rw [escaped_atIndex_succ h]; rfl
  rw [hfree] at hiff
  unfold Indexed.bodyOf State.bodyOf
  cases parts.head?.bind Keyword.atBody? with
  | some kind => rfl
  | none =>
    simp only [hcolon, hbrace, hiff, bind_eq_bind, bind_some]
    match colon, brace with
    | none, _ => simp
    | some _, none => simp
    | some colon, some brace => simp

/-! ## Steps -/

/-- The mode of an opened at-rule is that of its body. -/
theorem mode_openAtBlock (s : State) (body : List Char) :
    { s.openAtBlock o body with mode := bodyMode (State.bodyOf s.flushPart.parts body) } = s.openAtBlock o body := by
  obtain ⟨document, h⟩ := State.openAtBlock_eq o s body
  rw [h]

section

variable (h : text[i]? = some c)
include h

theorem indexed_inSelector :
    Indexed.inSelector o text i c s
      = some ((s.inSelector o (Cursor.atIndex text i) c).1, i + (s.inSelector o (Cursor.atIndex text i) c).2) := by
  have hrest : (Cursor.atIndex text i).rest = c :: text.drop (i + 1) := drop_of_getElem? h
  unfold Indexed.inSelector
  simp only [indexed_readRun h, indexed_startsComment h, indexed_behindEquals h, indexed_readEscape h,
    bind_eq_bind, bind_some]
  split
  · next htoken =>
    rw [State.inSelector, if_pos htoken]
    split <;> rfl
  next htoken =>
  split
  · next hcomment => rw [indexed_readComment hcomment, State.inSelector, if_neg htoken, if_pos hcomment]
  next hcomment =>
  split
  · next hc =>
    obtain rfl | rfl : c = '"' ∨ c = '\'' := by simpa using hc
    · simp [State.inSelector, htoken, hcomment]
    · simp [State.inSelector, htoken, hcomment]
  split
  · next hc =>
    cases beq_iff_eq.mp hc
    simp [State.inSelector, htoken, hcomment]
  · next hc =>
    rw [inSelector_takes.eq_zero hrest (by simpa using htoken) (by simpa using hcomment) (by simpa using hc)]
    rfl

theorem indexed_inProperty :
    Indexed.inProperty o text i c s
      = some ((s.inProperty o (Cursor.atIndex text i) c).1, i + (s.inProperty o (Cursor.atIndex text i) c).2) := by
  have hrest : (Cursor.atIndex text i).rest = c :: text.drop (i + 1) := drop_of_getElem? h
  unfold Indexed.inProperty
  simp only [indexed_readRun h, indexed_startsComment h, indexed_readEscape h, bind_eq_bind, bind_some]
  split
  · next htoken =>
    rw [State.inProperty, if_pos htoken]
    split <;> rfl
  next htoken =>
  split
  · next hcomment =>
    have hc : c = '/' := by
      obtain ⟨body, hbody⟩ := exists_body hcomment
      exact head_eq_of_cons_eq (hrest.symm.trans hbody)
    simp [indexed_readComment hcomment, State.inProperty, htoken, hcomment, hc]
  next hcomment =>
  split
  · next hc =>
    cases beq_iff_eq.mp hc
    simp [State.inProperty, htoken, hcomment]
  · next hc =>
    rw [inProperty_takes.eq_zero hrest (by simpa using htoken) (by simpa using hcomment) (by simpa using hc)]
    rfl

theorem indexed_inWords :
    Indexed.inWords text i c s
      = some ((s.inWords (Cursor.atIndex text i) c).1, i + (s.inWords (Cursor.atIndex text i) c).2) := by
  unfold Indexed.inWords State.inWords
  simp only [indexed_readRun h, bind_eq_bind, bind_some]
  split <;> rfl

theorem indexed_inValue :
    Indexed.inValue o text i c s
      = some ((s.inValue o (Cursor.atIndex text i) c).1, i + (s.inValue o (Cursor.atIndex text i) c).2) := by
  have hrest : (Cursor.atIndex text i).rest = c :: text.drop (i + 1) := drop_of_getElem? h
  have hlast : ((Cursor.atIndex text i).rest.drop 1).isEmpty = (i + 1 == text.length) := by
    obtain ⟨hlt, -⟩ := List.getElem?_eq_some_iff.mp h
    rw [hrest, Bool.eq_iff_iff, List.isEmpty_iff, List.drop_succ_cons, List.drop_zero, List.drop_eq_nil_iff, beq_iff_eq]
    omega
  unfold Indexed.inValue
  simp only [indexed_breakEnds h, indexed_startsComment h, indexed_inWords h, indexed_readEscape h,
    bind_eq_bind, bind_some, Option.pure_def]
  split
  · next hend =>
    rw [State.inValue, hlast, if_pos hend, Nat.add_zero]
  next hend =>
  split
  · next hbreak =>
    rw [State.inValue, hlast, if_neg hend, if_pos hbreak, Nat.add_zero]
  next hbreak =>
  split
  · next htoken => rw [State.inValue, hlast, if_neg hend, if_neg hbreak, if_pos htoken]
  next htoken =>
  split
  · next hcomment =>
    rw [indexed_readComment hcomment, State.inValue, hlast, if_neg hend, if_neg hbreak, if_neg htoken, if_pos hcomment]
  next hcomment =>
  split
  · next hc =>
    cases beq_iff_eq.mp hc
    rw [State.inValue, hlast, if_neg hend, if_neg hbreak]
    simp [htoken, hcomment]
  · next hc =>
    rw [inValue_takes.eq_zero hrest (by simpa using htoken) (by simpa using hcomment) (by simpa using hc)]
    rfl

theorem indexed_inBracket :
    Indexed.inBracket text i c s
      = some ((s.inBracket (Cursor.atIndex text i) c).1, i + (s.inBracket (Cursor.atIndex text i) c).2) := by
  unfold Indexed.inBracket
  simp only [indexed_readRun h, bind_eq_bind, bind_some]
  split
  · next hfree =>
    have htaken : (s.inBracket (Cursor.atIndex text i) c).2 = 0 := by
      unfold State.inBracket
      split
      · rfl
      next hspace =>
      rw [Bool.not_eq_true] at hspace
      rw [hspace, Bool.false_or, Bool.and_eq_true, Bool.not_eq_true'] at hfree
      rw [hfree.1, hfree.2, if_neg (by decide)]
      split
      · rfl
      split
      · rfl
      split <;> rfl
    rw [htaken, Nat.add_zero]
  · next hfree =>
    obtain ⟨hspace, hplain⟩ : Text.isSpace c = false ∧ _ := by
      simpa only [Bool.not_eq_true, Bool.or_eq_false_iff] using hfree
    rw [State.inBracket, hspace, if_neg (by decide), if_pos]
    · rfl
    · simpa [imp_iff_not_or] using hplain

theorem indexed_inAtRule (hbrace : (c == '}' && (Cursor.atIndex text i).atToken) = false) :
    Indexed.inAtRule o text i c s
      = some ((s.inAtRule o (Cursor.atIndex text i) c).1, i + (s.inAtRule o (Cursor.atIndex text i) c).2) := by
  have hrest : (Cursor.atIndex text i).rest = c :: text.drop (i + 1) := drop_of_getElem? h
  unfold Indexed.inAtRule
  simp only [indexed_inWords h, indexed_startsComment h, indexed_readEscape h, bind_eq_bind, bind_some]
  split
  · next htoken => rw [State.inAtRule, if_pos htoken]
  next htoken =>
  split
  · next hcomment => rw [indexed_readComment hcomment, State.inAtRule, if_neg htoken, if_pos hcomment]
  next hcomment =>
  split
  · next hc =>
    cases beq_iff_eq.mp hc
    rw [indexed_bodyOf h, bind_some, mode_openAtBlock]
    simp [State.inAtRule, htoken, hcomment, hrest]
  split
  · next hc => simp_all
  split
  · next hc =>
    cases beq_iff_eq.mp hc
    simp [State.inAtRule, htoken, hcomment]
  · next hc =>
    rw [inAtRule_takes.eq_zero hrest (by simpa using htoken) (by simpa using hcomment) (by simpa using hc)]
    rfl

end

/-- A closing brace in an at-rule is left where it is. -/
theorem indexed_inAtRule_brace (h : text[i]? = some '}') (htoken : (Cursor.atIndex text i).atToken = true)
    (hi : 0 < i) :
    Indexed.inAtRule o text i '}' s = some (s.endAtRule o, i - 1) := by
  have hcomment : State.atComment (Cursor.atIndex text i) = false := by
    rw [State.atComment, Cursor.atIndex, drop_of_getElem? h, take_succ_cons]
    rfl
  unfold Indexed.inAtRule
  simp [htoken, indexed_startsComment h, hcomment, back_eq hi]

theorem indexed_step (h : text[i]? = some c)
    (hbrace : s.mode = .atRule → (c == '}' && (Cursor.atIndex text i).atToken) = false) :
    Indexed.step o text i c s
      = some ((s.step o (Cursor.atIndex text i) c).1, i + (s.step o (Cursor.atIndex text i) c).2) := by
  unfold Indexed.step State.step
  cases hmode : s.mode with
  | selector => exact indexed_inSelector h
  | property => exact indexed_inProperty h
  | value => exact indexed_inValue h
  | string =>
    have htaken : (s.inString o (Cursor.atIndex text i) c).2 = 0 :=
      State.inString_cases (P := fun _ n => n = 0) (fun _ _ => rfl) (fun _ _ => rfl) rfl
    rw [htaken, Nat.add_zero]
  | bracket => exact indexed_inBracket h
  | atRule => exact indexed_inAtRule h (hbrace hmode)

/-! ## Runs -/

theorem atIndex_index (k : Cursor) : Cursor.atIndex k.text k.index = k := by
  unfold Cursor.atIndex Cursor.text Cursor.index
  rw [← length_reverse, take_left, drop_left, reverse_reverse]

theorem getElem?_index (k : Cursor) : k.text[k.index]? = k.rest.head? := by
  rw [← head?_drop]
  exact congrArg (·.rest.head?) (atIndex_index k)

theorem index_advance {k : Cursor} (h : n ≤ k.rest.length) : (k.advance n).index = k.index + n := by
  unfold Cursor.advance Cursor.index
  rw [length_append, length_reverse, length_take, Nat.min_eq_left h, Nat.add_comm]

/-- **Every place that a step looks at is there**, and it goes to the place where the cursor goes. -/
theorem indexed_next (hrest : r.cursor.rest ≠ []) (hindex : r.state.mode = .atRule → 0 < r.cursor.index) :
    Indexed.next o r.cursor.text r.cursor.index r.state = some ((r.next o).cursor.index, (r.next o).state) := by
  have hat := atIndex_index r.cursor
  have hget := getElem?_index r.cursor
  obtain ⟨c, tail, hcons⟩ := exists_cons_of_ne_nil hrest
  rw [hcons, head?_cons] at hget
  have hhead : c = '}' ∧ r.cursor.atToken = true ↔ r.cursor.rest.head? = some '}' ∧ r.cursor.escaped = false := by
    rw [hcons, head?_cons, some_inj, Cursor.atToken, hcons]
    have htoken : Text.isTokenChar '}' = true := by decide
    refine and_congr_right fun hc => ?_
    simp [hc, htoken]
  rw [Indexed.next, hget]
  by_cases hbrace : r.atSharedBrace = true
  · obtain ⟨hmode, hbrace'⟩ := (atSharedBrace_iff r).mp hbrace
    obtain ⟨rfl, htoken⟩ := hhead.mpr hbrace'
    have hpos := hindex hmode
    have hstep : Indexed.step o r.cursor.text r.cursor.index '}' r.state
        = some (r.state.endAtRule o, r.cursor.index - 1) := by
      rw [Indexed.step, hmode]
      exact indexed_inAtRule_brace hget (by rwa [hat]) hpos
    have hline : r.state.countLine '}' = r.state := rfl
    simp only [bind_eq_bind, bind_some, hline, hstep, next_of_brace hbrace, Nat.sub_add_cancel hpos]
    rfl
  · have hmode : (r.state.countLine c).mode = r.state.mode := by
      obtain ⟨line, hline⟩ := r.state.countLine_eq c
      rw [hline]
    have hstep := indexed_step (o := o) (s := r.state.countLine c) hget fun hrule => by
      rw [atSharedBrace_iff, ← hhead, not_and_or, ← hmode] at hbrace
      simpa [hat, hrule] using hbrace
    rw [hat] at hstep
    have htaken := (step_takes o (r.state.countLine c) r.cursor c).lt hcons
    simp only [bind_eq_bind, bind_some, hstep, next_of_cons hcons (by simpa using hbrace)]
    rw [index_advance htaken]
    rfl

theorem length_text (k : Cursor) : k.text.length = k.index + k.rest.length := by
  rw [Cursor.text, length_append, length_reverse, Cursor.index]

theorem index_lt_iff (k : Cursor) : k.index < k.text.length ↔ k.rest ≠ [] := by
  rw [length_text, ← length_pos_iff]
  omega

/-- A step that is not at a shared brace goes ahead, and not beyond the end of the text. -/
theorem index_lt_next (hrest : r.cursor.rest ≠ []) (hbrace : r.atSharedBrace = false) :
    r.cursor.index < (r.next o).cursor.index ∧ (r.next o).cursor.index ≤ r.cursor.text.length := by
  obtain ⟨c, tail, hcons⟩ := exists_cons_of_ne_nil hrest
  have htaken := (step_takes o (r.state.countLine c) r.cursor c).lt hcons
  rw [next_of_cons hcons hbrace, index_advance htaken, length_text]
  omega

/-- At a shared brace a step stays where it is, and the next one passes the brace. -/
theorem index_next_of_brace (hbrace : r.atSharedBrace = true) :
    (r.next o).cursor.index = r.cursor.index ∧
    ((r.next o).state.mode = .selector ∨ (r.next o).state.mode = .property) ∧
    ((r.next o).next o).cursor.index = r.cursor.index + 1 := by
  obtain ⟨-, hhead, hfree⟩ := (atSharedBrace_iff r).mp hbrace
  obtain ⟨tail, hcons⟩ := head?_eq_some_iff.mp hhead
  have hmode : (r.state.endAtRule o).mode = .selector ∨ (r.state.endAtRule o).mode = .property :=
    bodyMode_cases r.state.origin
  have hafter : atSharedBrace ⟨r.cursor, r.state.endAtRule o⟩ = false := by
    rcases hmode with hmode | hmode <;> simp [atSharedBrace, hmode]
  have htoken : r.cursor.atToken = true := by
    rw [Cursor.atToken, hhead, hfree]
    decide
  have hcomment : State.atComment r.cursor = false := by
    rw [State.atComment, hcons, take_succ_cons]
    rfl
  rw [next_of_brace hbrace]
  refine ⟨rfl, hmode, ?_⟩
  have htaken :=
    (step_takes o ((r.state.endAtRule o).countLine '}') r.cursor '}').eq_zero hcons htoken hcomment (by decide)
  rw [next_of_cons (r := ⟨r.cursor, r.state.endAtRule o⟩) hcons hafter, htaken, index_advance]
  rw [hcons]
  exact Nat.succ_le_succ (Nat.zero_le _)

/-- In an at-rule at least the at-sign has been passed. -/
theorem index_pos_next (hrest : r.cursor.rest ≠ []) (h : r.state.mode = .atRule → 0 < r.cursor.index) :
    0 < (r.next o).cursor.index := by
  cases hbrace : r.atSharedBrace with
  | true =>
    rw [(index_next_of_brace hbrace).1]
    exact h ((atSharedBrace_iff r).mp hbrace).1
  | false => exact Nat.zero_lt_of_lt (index_lt_next hrest hbrace).1

theorem text_next (o : Options) (r : Reader) : (r.next o).cursor.text = r.cursor.text := by
  obtain ⟨n, hn⟩ := exists_advance o r
  rw [hn, Cursor.text_advance]

theorem indexed_run (h : r.state.mode = .atRule → 0 < r.cursor.index) (hn : r.measure ≤ n) :
    Indexed.run o r.cursor.text n r.cursor.index r.state = some (r.cursor.text.length, (r.run o).state) := by
  have hend {r : Reader} (hrest : r.cursor.rest = []) : r.cursor.text.length = r.cursor.index := by
    rw [length_text, hrest, length_nil, Nat.add_zero]
  induction n generalizing r with
  | zero =>
    have hrest : r.cursor.rest = [] := by
      refine eq_nil_of_length_eq_zero ?_
      unfold measure at hn
      omega
    rw [Indexed.run, hend hrest, if_neg (lt_irrefl _), run_of_nil hrest]
  | succ n ih =>
    by_cases hrest : r.cursor.rest = []
    · rw [Indexed.run, hend hrest, if_neg (lt_irrefl _), run_of_nil hrest]
    · have hless := measure_next_lt o r hrest
      have hnext := ih (r := r.next o) (fun _ => index_pos_next hrest h) (by omega)
      rw [text_next, run_next] at hnext
      rw [Indexed.run, if_pos ((index_lt_iff _).mpr hrest), indexed_next hrest h]
      exact hnext

theorem index_pos_after (o : Options) (css : String) (n : Nat) :
    (after o css n).state.mode = .atRule → 0 < (after o css n).cursor.index :=
  after_induction (P := fun r => r.state.mode = .atRule → 0 < r.cursor.index) nofun
    (fun _ hrest h _ => index_pos_next hrest h) n

/-- **Reading by index never leaves the text.** The run over a stylesheet succeeds in at most two steps for each
character and ends behind the last of them. Every step goes ahead, but for one at a brace that an at-rule shares with
the block around it: there it stays, in the mode of a selector or a property, and the next step passes the brace. An
escape ends in the text, and not in front of its backslash. -/
theorem indexed_run_start (o : Options) (css : String) :
    Indexed.run o (sourceText css) (2 * (sourceText css).length) 0 {}
      = some ((sourceText css).length, ((start css).run o).state) ∧
    (∀ n, (after o css n).cursor.index < (sourceText css).length →
      Indexed.next o (sourceText css) (after o css n).cursor.index (after o css n).state
        = some ((after o css (n + 1)).cursor.index, (after o css (n + 1)).state) ∧
      ((after o css n).atSharedBrace = false →
        (after o css n).cursor.index < (after o css (n + 1)).cursor.index ∧
        (after o css (n + 1)).cursor.index ≤ (sourceText css).length) ∧
      ((after o css n).atSharedBrace = true →
        (after o css (n + 1)).cursor.index = (after o css n).cursor.index ∧
        ((after o css (n + 1)).state.mode = .selector ∨ (after o css (n + 1)).state.mode = .property) ∧
        (after o css (n + 2)).cursor.index = (after o css n).cursor.index + 1)) ∧
    ∀ (text : List Char) (b : Nat), b < text.length →
      ∃ last, Indexed.escapeLast text b = some last ∧ b ≤ last ∧ last < text.length := by
  refine ⟨indexed_run (r := start css) nofun le_rfl, fun n hn => ?_, fun text b hb => ?_⟩
  · rw [← text_after o css n] at hn ⊢
    have hrest := (index_lt_iff _).mp hn
    rw [after_succ o css (n + 1), after_succ o css n]
    exact ⟨indexed_next hrest (index_pos_after o css n), index_lt_next hrest, index_next_of_brace⟩
  · refine ⟨_, indexed_escapeLast hb, Nat.le_add_right _ _, ?_⟩
    have htaken := Text.Escape.takenLength_le (text.drop (b + 1))
    rw [List.length_drop] at htaken
    omega

/-- A rule that ends together with the selector around it. -/
def ruleInSelector : String := "a\x7b@b\x7d"

theorem indexed_run_start_ruleInSelector :
    (after {} ruleInSelector 3).cursor.index = 3 ∧ (after {} ruleInSelector 4).cursor.index = 4 ∧
    (after {} ruleInSelector 4).atSharedBrace = true ∧
    (after {} ruleInSelector 5).cursor.index = (after {} ruleInSelector 4).cursor.index ∧
    (after {} ruleInSelector 6).cursor.index = (after {} ruleInSelector 4).cursor.index + 1 ∧
    ∃ last, Indexed.escapeLast ['\\'] 0 = some last ∧ 0 ≤ last ∧ last < 1 := by
  obtain ⟨-, hsteps, hescape⟩ := indexed_run_start {} ruleInSelector
  have hbrace : (after {} ruleInSelector 4).atSharedBrace = true := by decide +kernel
  obtain ⟨-, -, hshared⟩ := hsteps 4 (by decide +kernel)
  obtain ⟨hstay, -, hpass⟩ := hshared hbrace
  exact ⟨by decide +kernel, by decide +kernel, hbrace, hstay, hpass, hescape ['\\'] 0 (by decide)⟩

end Reader

end Stylesheet
