import Stylesheet.Proofs.Reader.Sight

/-!
# What a step takes along

A step passes the next character, and it may take more along: the rest of a run of ordinary characters, the rest of a
comment, or the digits of an escape and the space behind them. `Takes` lists these ways, `step_takes` says that there
are no others, and `Takes.lt` that none of them leads beyond the end of the text. Only an escape can take along the
blank that stands behind a stylesheet.
-/

namespace Stylesheet

namespace Reader

open State Text.Escape List
open Text (Cursor)

variable {o : Options} {s : State} {k : Cursor} {c : Char} {n : Nat}

/-! ## Runs and comments -/

/-- Beyond its first character a run takes along the rest of itself. -/
theorem take_readRun (k : Cursor) (c : Char) : (k.rest.drop 1).take (readRun k c).2 = k.ordinaryRun.drop 1 := by
  unfold readRun
  simp only
  split
  · next hempty => simp [isEmpty_iff.mp hempty]
  · have htaken : k.ordinaryRun = k.rest.take k.ordinaryRun.length :=
      prefix_iff_eq_take.mp (List.takeWhile_prefix _)
    conv_rhs => rw [htaken, drop_take]

theorem readRun_le (k : Cursor) (c : Char) : (readRun k c).2 ≤ k.ordinaryRun.length - 1 := by
  unfold readRun
  simp only
  split
  · exact Nat.zero_le _
  · exact le_rfl

theorem exists_body (h : atComment k = true) : ∃ body, k.rest = '/' :: '*' :: body := by
  have htake : k.rest.take 2 = ['/', '*'] := by simpa [atComment] using h
  exact ⟨k.rest.drop 2, (take_append_drop 2 k.rest).symm.trans (by rw [htake]; rfl)⟩

/-- A comment takes along its text and the tokens around that. -/
theorem take_commentAt (h : atComment k = true) :
    ∃ finish, (finish = [] ∨ finish = ['*', '/']) ∧
      (k.rest.drop 1).take (commentAt k).2 = '*' :: (commentAt k).1 ++ finish := by
  obtain ⟨body, hbody⟩ := exists_body h
  unfold commentAt
  rw [hbody]
  simp only [drop_succ_cons, drop_zero]
  cases hcut : cutComment? body with
  | none =>
    refine ⟨[], .inl rfl, ?_⟩
    simp [dropLast_eq_take]
  | some text =>
    obtain ⟨more, rfl⟩ := eq_of_cutComment? hcut
    refine ⟨['*', '/'], .inr rfl, ?_⟩
    simp only [take_succ_cons]
    rw [take_length_add_append]
    rfl

theorem commentAt_lt (h : atComment k = true) : (commentAt k).2 < k.rest.length := by
  obtain ⟨body, hbody⟩ := exists_body h
  unfold commentAt
  rw [hbody]
  simp only [drop_succ_cons, drop_zero]
  cases hcut : cutComment? body with
  | none =>
    simp only [length_dropLast, length_cons]
    omega
  | some text =>
    obtain ⟨more, rfl⟩ := eq_of_cutComment? hcut
    simp only [length_append, length_cons]
    omega

/-! ## Steps -/

/-- How many characters a step in some mode takes along beyond the next one. -/
inductive Takes (mode : Mode) (k : Cursor) (c : Char) : Nat → Prop
  | alone : Takes mode k c 0
  | run : Takes mode k c (readRun k c).2
  | comment (hstring : mode ≠ .string) (hbracket : mode ≠ .bracket) (htoken : k.atToken = true)
      (hcomment : atComment k = true) : Takes mode k c (commentAt k).2
  | escape (hstring : mode ≠ .string) (hbracket : mode ≠ .bracket) (htoken : k.atToken = true) (hc : c = '\\') :
      Takes mode k c (takenLength (k.rest.drop 1))

/-- No step goes beyond the end of the text. -/
theorem Takes.lt {mode : Mode} {tail : List Char} (h : Takes mode k c n) (hrest : k.rest = c :: tail) :
    n < k.rest.length := by
  cases h with
  | alone => simp [hrest]
  | run =>
    have hle := readRun_le k c
    have hrun : k.ordinaryRun.length ≤ k.rest.length := (List.takeWhile_prefix _).length_le
    have hpos : 0 < k.rest.length := by simp [hrest]
    omega
  | comment _ _ _ hcomment => exact commentAt_lt hcomment
  | escape =>
    have hle := takenLength_le (k.rest.drop 1)
    rw [hrest, drop_succ_cons, drop_zero] at hle ⊢
    exact Nat.lt_succ_of_le hle

/-- A token takes nothing along, unless it starts a comment or an escape. -/
theorem Takes.eq_zero {mode : Mode} {tail : List Char} (h : Takes mode k c n) (hrest : k.rest = c :: tail)
    (htoken : k.atToken = true) (hcomment : atComment k = false) (hc : c ≠ '\\') : n = 0 := by
  cases h with
  | alone => rfl
  | run =>
    have htokenChar : Text.isTokenChar c = true := by
      rw [Cursor.atToken, hrest, Bool.and_eq_true] at htoken
      exact htoken.1
    have hrun : k.ordinaryRun = [] := by
      rw [Cursor.ordinaryRun, hrest, takeWhile_cons_of_neg]
      simp [Text.isOrdinary, htokenChar]
    simp [readRun, hrun]
  | comment _ _ _ hcomment' => exact absurd hcomment' (by simp [hcomment])
  | escape _ _ _ hc' => exact absurd hc' hc

theorem readEscape_takes {mode : Mode} {t : State} {text : String} (hstring : mode ≠ .string)
    (hbracket : mode ≠ .bracket)
    (htoken : k.atToken = true) (hc : c = '\\') (h : s.readEscape o k = (text, t, n)) : Takes mode k c n := by
  have hn : n = (s.readEscape o k).2.2 := by rw [h]
  have hlength : (s.readEscape o k).2.2 = takenLength (k.rest.drop 1) := length_read _ _
  rw [hn, hlength]
  exact .escape hstring hbracket htoken hc

theorem readComment_takes {mode : Mode} (hstring : mode ≠ .string) (hbracket : mode ≠ .bracket)
    (htoken : k.atToken = true) (hcomment : atComment k = true) : Takes mode k c (s.readComment o k).2 := by
  rw [readComment_eq_addComment]
  exact .comment hstring hbracket htoken hcomment

theorem inWords_takes (mode : Mode) : Takes mode k c (s.inWords k c).2 :=
  inWords_cases (P := fun _ n => Takes mode k c n) (fun _ => .alone) (fun _ => .run)

theorem inSelector_takes : Takes .selector k c (s.inSelector o k c).2 := by
  apply inSelector_cases (P := fun _ n => Takes .selector k c n)
  case run => exact fun _ _ => .run
  case comment => exact fun htoken hat => readComment_takes (by decide) (by decide) htoken hat
  case escape => exact fun htoken hc _ _ _ h => readEscape_takes (by decide) (by decide) htoken hc h
  all_goals intros; exact .alone

theorem inProperty_takes : Takes .property k c (s.inProperty o k c).2 := by
  apply inProperty_cases (P := fun _ n => Takes .property k c n)
  case run => exact fun _ _ => .run
  case comment => exact fun htoken hat => readComment_takes (by decide) (by decide) htoken hat
  case escape => exact fun htoken hc _ _ _ h => readEscape_takes (by decide) (by decide) htoken hc h
  all_goals intros; exact .alone

theorem inValue_takes : Takes .value k c (s.inValue o k c).2 := by
  apply inValue_cases (P := fun _ n => Takes .value k c n)
  case words => exact fun _ _ => inWords_takes .value
  case comment => exact fun htoken hat => readComment_takes (by decide) (by decide) htoken hat
  case escape => exact fun htoken hc _ _ _ h => readEscape_takes (by decide) (by decide) htoken hc h
  all_goals intros; exact .alone

theorem inBracket_takes : Takes .bracket k c (s.inBracket k c).2 := by
  apply inBracket_cases (P := fun _ n => Takes .bracket k c n)
  case run => exact fun _ => .run
  all_goals intros; exact .alone

theorem inAtRule_takes : Takes .atRule k c (s.inAtRule o k c).2 := by
  apply inAtRule_cases (P := fun _ n => Takes .atRule k c n)
  case words => exact fun _ => inWords_takes .atRule
  case comment => exact fun htoken hat => readComment_takes (by decide) (by decide) htoken hat
  case escape => exact fun htoken hc _ _ _ h => readEscape_takes (by decide) (by decide) htoken hc h
  all_goals intros; exact .alone

/-- **What a step takes along** is a run, a comment or an escape, or nothing at all. -/
theorem step_takes (o : Options) (s : State) (k : Cursor) (c : Char) : Takes s.mode k c (s.step o k c).2 := by
  unfold step
  cases s.mode with
  | selector => exact inSelector_takes
  | property => exact inProperty_takes
  | value => exact inValue_takes
  | string => exact inString_cases (P := fun _ n => Takes .string k c n) (fun _ _ => .alone) (fun _ _ => .alone) .alone
  | bracket => exact inBracket_takes
  | atRule => exact inAtRule_takes

end Reader

end Stylesheet
