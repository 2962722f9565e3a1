import Stylesheet.Proofs.Reader.Growth

/-!
# At-rules and at-signs

Every at-rule in a tree that was read has an at-sign of its own in the text. An at-rule starts with an at-sign between
rules or between declarations; at-signs anywhere else start nothing. So the at-rules in the tree so far, the at-rule
that is being read, and the at-signs still to come are never more than the at-signs of the text
(`next_within`), and they are fewer behind an at-sign in a value (`next_within_of_value`).
-/

namespace Stylesheet

open List

mutual

/-- The at-rules in a node, with a body or without. -/
def Node.atRules : Node → Nat
  | .block _ kind _ children => (if kind = .atBlock then 1 else 0) + atRulesIn children
  | .lineAt _ => 1
  | .comment _ => 0

/-- The at-rules in nodes. -/
def Node.atRulesIn : List Node → Nat
  | [] => 0
  | n :: ns => n.atRules + atRulesIn ns

end

theorem Node.atRulesIn_append (ms ns : List Node) : atRulesIn (ms ++ ns) = atRulesIn ms + atRulesIn ns := by
  induction ms with
  | nil => simp [atRulesIn]
  | cons m ms ih =>
    rw [cons_append, atRulesIn, atRulesIn, ih]
    omega

namespace Frame

/-- The at-rules in an open block. -/
def inside (f : Frame) : Nat := Node.atRulesIn f.before + Node.atRulesIn f.after

/-- The at-rules that an open block in others is. -/
def own (f : Frame) (fs : List Frame) : Nat := if fs ≠ [] ∧ f.kind = .atBlock then 1 else 0

/-- The at-rules in a tree with an open path. The root is none. -/
def atRules : List Frame → Nat
  | [] => 0
  | f :: fs => f.own fs + f.inside + atRules fs

theorem atRules_push (f : Frame) (n : Node) (fs : List Frame) :
    atRules (f.push n :: fs) = atRules (f :: fs) + n.atRules := by
  have hown : (f.push n).own fs = f.own fs := rfl
  have hinside : (f.push n).inside = f.inside + n.atRules := by
    simp only [inside, push, Node.atRulesIn_append, Node.atRulesIn]
    omega
  rw [atRules, atRules, hown, hinside]
  omega

theorem atRules_declare (f : Frame) (property : String) (value : Value) (fs : List Frame) :
    atRules (f.declare property value :: fs) = atRules (f :: fs) := rfl

/-- Closing a block takes nothing away. -/
theorem atRules_close (f g : Frame) (fs : List Frame) : atRules (f.close g :: fs) = atRules (f :: g :: fs) := by
  have hown : (f.close g).own fs = g.own fs := rfl
  have hinside : (f.close g).inside = f.own (g :: fs) + f.inside + g.inside := by
    simp only [inside, close, node, own, Node.atRulesIn_append, Node.atRulesIn, Node.atRules, ne_eq, reduceCtorEq,
      not_false_eq_true, true_and]
    omega
  rw [atRules, atRules, atRules, hown, hinside]
  omega

theorem atRulesIn_closeAll (f : Frame) (fs : List Frame) :
    Node.atRulesIn (f.closeAll fs).before ≤ atRules (f :: fs) := by
  induction fs generalizing f with
  | nil =>
    rw [atRules, atRules, inside]
    simp only [closeAll, foldl_nil]
    omega
  | cons g fs ih =>
    rw [← atRules_close]
    exact ih (f.close g)

end Frame

namespace Reader

open State

variable {o : Options} {s t : State} {n : Nat}

/-- The at-rules that are being read: at most one, under the strings and functions in it. -/
def State.pending (s : State) : Nat := (s.mode :: s.returns).count .atRule

/-- There are at most so many at-rules in the tree so far, together with those that are being read. -/
def Bounded (s : State) (n : Nat) : Prop := ∃ frames, s.Builds frames ∧ Frame.atRules frames + s.pending ≤ n

theorem Bounded.mono (h : Bounded s n) {m : Nat} (hle : n ≤ m) : Bounded s m := by
  obtain ⟨frames, hbuilds, hbound⟩ := h
  exact ⟨frames, hbuilds, hbound.trans hle⟩

/-- A change of the frames that costs no more than it saves. -/
theorem Bounded.of_builds (h : Bounded s n)
    (hbuilds : ∀ f fs, s.Builds (f :: fs) → ∃ frames, t.Builds frames ∧
      Frame.atRules frames + t.pending ≤ Frame.atRules (f :: fs) + s.pending) : Bounded t n := by
  obtain ⟨frames, hframes, hle⟩ := h
  obtain ⟨f, fs, rfl⟩ := hframes.exists_cons
  obtain ⟨frames, hframes', hle'⟩ := hbuilds f fs hframes
  exact ⟨frames, hframes', hle'.trans hle⟩

theorem Bounded.keep (h : Bounded s n) (hblocks : t.document.blocks = s.document.blocks)
    (hopen : t.openBlocks = s.openBlocks) (hpending : t.pending ≤ s.pending) : Bounded t n := by
  refine h.of_builds fun f fs hbuilds => ⟨f :: fs, hbuilds.congr hblocks hopen, ?_⟩
  omega

theorem Bounded.congr (h : Bounded s n) (hblocks : t.document.blocks = s.document.blocks)
    (hopen : t.openBlocks = s.openBlocks) (hmode : t.mode = s.mode) (hreturns : t.returns = s.returns) :
    Bounded t n := by
  refine h.keep hblocks hopen ?_
  rw [pending, pending, hmode, hreturns]

/-! ## Moves -/

theorem pending_of_mode {m : Mode} (h : s.mode = m) (hm : m ≠ .atRule) : s.pending = s.returns.count .atRule := by
  rw [pending, h, count_cons_of_ne hm]

theorem pending_of_atRule (h : s.mode = .atRule) : s.pending = s.returns.count .atRule + 1 := by
  rw [pending, h, count_cons_self]

/-- Going back to an earlier mode starts nothing. -/
theorem pending_popMode_le (s : State) {m : Mode} (hm : m ≠ .atRule) : (s.popMode m).pending ≤ s.returns.count .atRule := by
  unfold popMode
  split
  · next h => simp [pending, h, hm]
  · next h =>
    rw [h]
    exact le_rfl

section

variable (h : Bounded s n)
include h

theorem Bounded.popMode {m : Mode} (hm : m ≠ .atRule) : Bounded (s.popMode m) n := by
  refine h.keep ?_ ?_ ?_
  · rw [popMode_eq]
  · rw [popMode_eq]
  · exact (pending_popMode_le s hm).trans (count_le_count_cons)

theorem Bounded.readComment (k : Text.Cursor) : Bounded (s.readComment o k).1 n := by
  have hadd (text : List Char) : Bounded (s.addComment o text) n := by
    have hpending : (s.addComment o text).pending = s.pending := by
      rw [addComment, pushToken_eq]
      rfl
    refine h.of_builds fun f fs hbuilds => ⟨_, addComment_builds hbuilds text, ?_⟩
    rw [Frame.atRules_push, Node.atRules, hpending]
    exact le_rfl
  unfold State.readComment
  simp only
  split <;> exact hadd _

theorem Bounded.addDeclaration (property : String) (value : Value) : Bounded (s.addDeclaration o property value) n := by
  have hpending : (s.addDeclaration o property value).pending = s.pending := by
    obtain ⟨document, heq⟩ := addDeclaration_eq o s property value
    rw [heq]
    rfl
  refine h.of_builds fun f fs hbuilds => ⟨_, addDeclaration_builds hbuilds property value, ?_⟩
  rw [Frame.atRules_declare, hpending]

theorem Bounded.endDeclaration : Bounded (s.endDeclaration o) n := by
  have hcleared : Bounded (s.cleared o) n := h.congr rfl rfl rfl rfl
  rw [endDeclaration_eq_elim]
  cases s.declaration? o with
  | none => exact hcleared
  | some d => exact hcleared.addDeclaration d.1 d.2

theorem Bounded.closeBlock : Bounded (s.closeBlock o) n := by
  have hpending : (s.closeBlock o).pending = s.pending := by
    obtain ⟨document, heq⟩ := closeBlock_eq o s
    rw [heq]
    rfl
  refine h.of_builds fun f fs hbuilds => ?_
  cases fs with
  | nil =>
    -- only the root is open, and it stays so
    have hopen : s.openBlocks = [] := by simpa using Document.Builds.length_eq hbuilds
    have hkept : s.closeBlock o = s := by simp [State.closeBlock, hopen]
    exact ⟨[f], hkept.symm ▸ hbuilds, by rw [hkept]⟩
  | cons g fs =>
    refine ⟨_, closeBlock_builds hbuilds, ?_⟩
    rw [Frame.atRules_close, hpending]

theorem Bounded.openSelector : Bounded (s.openSelector o) n := by
  have hpending : (s.openSelector o).pending ≤ s.pending := by
    obtain ⟨id, document, heq⟩ := openSelector_eq o s
    rw [heq]
    exact count_le_count_cons
  refine h.of_builds fun f fs hbuilds => ?_
  cases hearlier : earlierSelector? o s.document s.current (s.selectorName o) with
  | none =>
    refine ⟨_, openSelector_builds_new hbuilds hearlier, ?_⟩
    simp only [Frame.atRules, Frame.own, Frame.inside, Node.atRulesIn, reduceCtorEq, and_false, if_false]
    omega
  | some id =>
    -- the block is taken out of the innermost one and stands on its own
    obtain ⟨left, fragments, ds, children, right, hbefore, hagain⟩ := openSelector_builds_again hbuilds hearlier
    refine ⟨_, hagain, ?_⟩
    simp only [Frame.atRules, Frame.own, Frame.inside, hbefore, Node.atRulesIn_append, Node.atRulesIn, Node.atRules,
      reduceCtorEq, and_false, if_false]
    omega

/-- The block of an at-rule takes the place of the at-rule that is being read. -/
theorem Bounded.openAtBlock (hmode : s.mode = .atRule) (body : List Char) : Bounded (s.openAtBlock o body) n := by
  have hbody (b : Keyword.AtBody) : bodyMode b ≠ .atRule := by cases b <;> decide
  have hpending : (s.openAtBlock o body).pending + 1 = s.pending := by
    obtain ⟨document, heq⟩ := openAtBlock_eq o s body
    rw [heq, pending_of_atRule hmode, pending, count_cons_of_ne (hbody _), count_cons_of_ne (hbody _)]
  refine h.of_builds fun f fs hbuilds => ⟨_, openAtBlock_builds hbuilds body, ?_⟩
  simp only [Frame.atRules, Frame.own, Frame.inside, Node.atRulesIn]
  split <;> omega

theorem Bounded.addAtRule : Bounded (s.addAtRule o) (n + 1) := by
  have hpending : (s.addAtRule o).pending = s.pending := by
    obtain ⟨document, new, -, heq⟩ := addAtRule_eq o s
    rw [heq]
    rfl
  obtain ⟨frames, hbuilds, hle⟩ := h
  obtain ⟨f, fs, rfl⟩ := hbuilds.exists_cons
  rcases addAtRule_cases o s with ⟨hblocks, -, hopen⟩ | ⟨rule, hrule⟩
  · refine ⟨f :: fs, hbuilds.congr hblocks hopen, ?_⟩
    omega
  · have hadded := addLineAt_builds (o := o) hbuilds rule
    rw [← hrule] at hadded
    refine ⟨_, hadded, ?_⟩
    rw [Frame.atRules_push, Node.atRules]
    omega

/-- An at-rule without a body takes the place of the at-rule that is being read. -/
theorem Bounded.endAtRule (hmode : s.mode = .atRule) : Bounded (s.endAtRule o) n := by
  have hbody : bodyMode s.origin ≠ .atRule := by cases s.origin <;> decide
  have hflushed : Bounded s.flushPart n := h.congr rfl rfl rfl rfl
  have hadded := hflushed.addAtRule (o := o)
  have hstill : (s.flushPart.addAtRule o).mode = .atRule := by
    obtain ⟨document, new, -, heq⟩ := addAtRule_eq o s.flushPart
    rw [heq]
    exact hmode
  unfold State.endAtRule
  generalize s.flushPart.addAtRule o = t at hadded hstill
  obtain ⟨frames, hbuilds, hle⟩ := hadded
  refine ⟨frames, hbuilds.congr rfl rfl, ?_⟩
  rw [pending_of_atRule hstill] at hle
  rw [pending_of_mode rfl hbody]
  exact Nat.le_of_succ_le_succ hle

/-! ## Steps -/

end

variable {k : Text.Cursor} {c : Char}

theorem Act.bounded {first : State} (h : Act o first s t) (hs : Bounded s n) : Bounded t n := by
  cases h with
  | write h => exact hs.congr (by rw [h]) (by rw [h]) (by rw [h]) (by rw [h])
  | enter hmode hback =>
    subst hback
    exact hs.keep rfl rfl (count_cons_of_ne hmode).le
  | leave h => exact hs.popMode h
  | skip => exact hs.keep rfl rfl (((drop_sublist 1 s.returns).cons_cons s.mode).count_le _)
  | openSelector => exact hs.openSelector
  | openAtBlock hmode body => exact hs.openAtBlock hmode body
  | closeBlock => exact hs.closeBlock
  | endDeclaration => exact hs.endDeclaration
  | endAtRule hmode => exact hs.endAtRule hmode
  | _ => exact hs.congr rfl rfl rfl rfl

/-- Only an at-sign starts an at-rule, and not in a value. -/
theorem Start.bounded {m : Nat} (h : Start o k c s t m) (hs : Bounded s n) :
    Bounded t (n + if c = '@' ∧ s.mode ≠ .value then 1 else 0) := by
  cases h with
  | stay => exact hs.mono (Nat.le_add_right _ _)
  | run h => exact (hs.congr (by rw [h]) (by rw [h]) (by rw [h]) (by rw [h])).mono (Nat.le_add_right _ _)
  | comment => exact (hs.readComment k).mono (Nat.le_add_right _ _)
  | escape h =>
    obtain ⟨line, new, -, rfl⟩ := readEscape_eq h
    exact (hs.congr rfl rfl rfl rfl).mono (Nat.le_add_right _ _)
  | atSign hc hmode =>
    have hother : s.mode ≠ .value ∧ s.mode ≠ .atRule := by rcases hmode with h | h <;> simp [h]
    obtain ⟨frames, hbuilds, hle⟩ := hs
    rw [if_pos ⟨hc, hother.1⟩]
    refine ⟨frames, hbuilds.congr rfl rfl, ?_⟩
    rw [pending_of_mode rfl hother.2] at hle
    rw [pending_of_atRule rfl]
    dsimp only
    omega

/-- A step starts an at-rule only if it reads an at-sign, and not in a value. -/
theorem Acts.bounded {m : Nat} (h : Acts o k c s t m) (hs : Bounded s n) :
    Bounded t (n + if c = '@' ∧ s.mode ≠ .value then 1 else 0) := by
  induction h with
  | start h => exact h.bounded hs
  | act _ hact ih => exact hact.bounded ih

/-! ## Runs -/

variable {r : Reader}

/-- There are at most so many at-rules in the tree so far, together with those that are being read and the at-signs
still to come. -/
def Within (r : Reader) (n : Nat) : Prop := ∃ m, Bounded r.state m ∧ m + r.cursor.rest.count '@' ≤ n

theorem Bounded.countLine (h : Bounded s n) (c : Char) : Bounded (s.countLine c) n := by
  obtain ⟨line, heq⟩ := s.countLine_eq c
  rw [heq]
  exact h.congr rfl rfl rfl rfl

/-- What a step takes along is not to come any more. -/
theorem count_advance_le {k : Text.Cursor} {tail : List Char} (hrest : k.rest = c :: tail) (taken : Nat) :
    (k.advance (taken + 1)).rest.count '@' + (if c = '@' then 1 else 0) ≤ k.rest.count '@' := by
  have hdrop : (tail.drop taken).count '@' ≤ tail.count '@' := (drop_sublist taken tail).count_le _
  rw [Text.Cursor.advance, hrest, drop_succ_cons, count_cons]
  simp only [beq_iff_eq]
  omega

/-- **A step** makes no at-rule without an at-sign. -/
theorem next_within (h : Within r n) : Within (r.next o) n := by
  obtain ⟨m, hm, hle⟩ := h
  by_cases hrest : r.cursor.rest = []
  · rw [next_of_nil hrest]
    exact ⟨m, hm, hle⟩
  refine next_cases (P := fun r' => Within r' n) hrest ?_ ?_
  · intro hbrace
    have hmode : r.state.mode = .atRule := by
      simp only [atSharedBrace, Bool.and_eq_true, decide_eq_true_eq] at hbrace
      exact hbrace.1.1
    exact ⟨m, hm.endAtRule hmode, hle⟩
  · intro c tail hcons _
    have hstep := (step_acts o _ r.cursor c).bounded (hm.countLine c)
    generalize (r.state.countLine c).step o r.cursor c = result at hstep
    have hcount := count_advance_le hcons result.2
    refine ⟨m + if c = '@' then 1 else 0, hstep.mono ?_, ?_⟩
    · split <;> simp_all
    · show m + (if c = '@' then 1 else 0) + (r.cursor.advance (result.2 + 1)).rest.count '@' ≤ n
      omega

/-- **An at-sign in a value** makes no at-rule at all. -/
theorem next_within_of_value {tail : List Char} (hmode : r.state.mode = .value) (hrest : r.cursor.rest = '@' :: tail)
    (h : Within r (n + 1)) : Within (r.next o) n := by
  obtain ⟨m, hm, hle⟩ := h
  have hne : r.cursor.rest ≠ [] := by simp [hrest]
  refine next_cases (P := fun r' => Within r' n) hne ?_ ?_
  · intro hbrace
    simp [atSharedBrace, hmode] at hbrace
  · intro c tail' hcons _
    obtain ⟨rfl, rfl⟩ := cons.inj (hrest.symm.trans hcons)
    have hmode' : (r.state.countLine '@').mode = .value := hmode
    have hstep := (step_acts o _ r.cursor '@').bounded (hm.countLine '@')
    rw [if_neg (by simp [hmode']), Nat.add_zero] at hstep
    generalize (r.state.countLine '@').step o r.cursor '@' = result at hstep
    have hcount := count_advance_le hrest result.2
    refine ⟨m, hstep, ?_⟩
    show m + (r.cursor.advance (result.2 + 1)).rest.count '@' ≤ n
    rw [if_pos rfl] at hcount
    omega

theorem run_within (h : Within r n) : Within (run o r) n := by
  fun_induction run o r with
  | case1 r _ => exact h
  | case2 r _ ih => exact ih (next_within h)

theorem Bounded.finish (h : Bounded s n) : Bounded (s.finish o) n := by
  have hbracket := (finishBracket_acts o s ⟨[], []⟩ ' ').bounded h
  rw [if_neg (by simp), Nat.add_zero] at hbracket
  unfold State.finish State.finishWords
  split
  · exact hbracket.endDeclaration
  · next hmode => exact hbracket.endAtRule hmode
  · exact hbracket

/-- What holds in front of some step holds in the end. -/
theorem atRulesIn_run_le (h : Within r n) : Node.atRulesIn ((run o r).state.finish o).document.tree ≤ n := by
  obtain ⟨m, hm, hle⟩ := run_within (o := o) h
  obtain ⟨frames, hbuilds, hbound⟩ := hm.finish (o := o)
  obtain ⟨f, fs, rfl⟩ := hbuilds.exists_cons
  rw [Document.Builds.tree_eq hbuilds]
  have hclosed := Frame.atRulesIn_closeAll f fs
  omega

/-- **Every at-rule has an at-sign of its own**: a tree that was read has no more at-rules than its text has
at-signs. -/
theorem atRulesIn_read_le (o : Options) (css : String) :
    Node.atRulesIn (Document.read o css).1.tree ≤ (sourceText css).count '@' := by
  have hstart : Within (start css) ((sourceText css).count '@') :=
    ⟨0, ⟨[.root], Document.empty_builds, le_rfl⟩, by rw [Nat.zero_add]; exact le_rfl⟩
  exact atRulesIn_run_le hstart

end Reader

end Stylesheet
