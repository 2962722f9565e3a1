import Stylesheet.Proofs.Reader.Alike
import Mathlib.Order.Monotone.Basic

/-!
# Reading one stylesheet behind another

A stylesheet that is complete leaves nothing behind that could change how another one is read: `Complete` says when that
is so. Where the source is kept, what is read of both of them in a row is what is read of the first one and then what is
read of the second one (`read_append_of_complete`).

The reader of both texts is compared with the readers of either one. Up to the end of the first text it is like the
reader of that text alone, since nothing behind the text is seen (`after_inside`). From there on it is like the reader
of the second text alone, with all that was read before as a preface (`iterate_behind`).
-/

namespace Stylesheet.Reader

open Text State List Document Cursor

variable {o : Options} {css css₁ css₂ : String} {n : Nat}

/-! ## Texts in a row -/

/-- Line ends are unified in two texts apart, unless one line end is in both of them. -/
theorem unifyLines_append {a b : List Char} (h : a.getLast? ≠ some '\r' ∨ b.head? ≠ some '\n') :
    unifyLines (a ++ b) = unifyLines a ++ unifyLines b := by
  fun_induction unifyLines a with
  | case1 => rfl
  | case2 s ih =>
    rw [cons_append, cons_append, unifyLines, ih, cons_append]
    refine h.imp_left fun hlast => ?_
    cases s with
    | nil => simp
    | cons d s => simpa using hlast
  | case3 c s hc ih =>
    rw [cons_append, unifyLines, ih, cons_append]
    · refine h.imp_left fun hlast => ?_
      cases s with
      | nil => simp
      | cons d s => simpa using hlast
    -- a return at the end of the first text would join with a newline at the start of the second one
    · rintro w rfl hw
      cases s with
      | nil =>
        rcases h with h | h
        · exact h rfl
        · exact h (by rw [← nil_append b, hw]; rfl)
      | cons d s =>
        rw [cons_append, cons.injEq] at hw
        exact hc s rfl (by rw [hw.1])

/-- Unifying line ends leaves a closing token alone. -/
theorem sealed_unifyLines {v : List Char} (h : Sealed v) : Sealed (unifyLines v) := by
  obtain ⟨front, c, rfl⟩ := (eq_nil_or_concat' v).resolve_left h.ne_nil
  have hc : c = '}' ∨ c = ';' := by simpa [Sealed] using h
  have hunify : unifyLines [c] = [c] := by rcases hc with rfl | rfl <;> rfl
  have hline : [c].head? ≠ some '\n' := by rcases hc with rfl | rfl <;> decide
  rw [unifyLines_append (.inr hline), hunify]
  simpa [Sealed] using hc

theorem sourceText_append_of_joint (h : css₁.toList.getLast? ≠ some '\r' ∨ css₂.toList.head? ≠ some '\n') :
    sourceText (css₁ ++ css₂) = unifyLines css₁.toList ++ sourceText css₂ := by
  rw [sourceText, String.toList_append, unifyLines_append h, append_assoc, sourceText]

theorem sourceText_append (h : Sealed css₁.toList) :
    sourceText (css₁ ++ css₂) = unifyLines css₁.toList ++ sourceText css₂ := by
  refine sourceText_append_of_joint (.inl ?_)
  rcases h with h | h <;> rw [h] <;> decide

/-! ## Moving over a text -/

theorem exists_advance (o : Options) (r : Reader) : ∃ n, (r.next o).cursor = r.cursor.advance n := by
  by_cases hrest : r.cursor.rest = []
  · rw [next_of_nil hrest]
    exact ⟨0, rfl⟩
  · exact next_cases (P := fun r' => ∃ n, r'.cursor = r.cursor.advance n) hrest (fun _ => ⟨0, rfl⟩)
      (fun _ _ _ _ => ⟨_, rfl⟩)

/-- The reader passes over a text and changes nothing in it. -/
theorem text_after (o : Options) (css : String) (n : Nat) : (after o css n).cursor.text = sourceText css := by
  refine after_induction (P := fun r => r.cursor.text = sourceText css) rfl (fun r _ h => ?_) n
  obtain ⟨m, hm⟩ := exists_advance o r
  rw [hm, text_advance, h]

theorem after_add (o : Options) (css : String) (n m : Nat) : after o css (n + m) = (next o)^[n] (after o css m) :=
  Function.iterate_add_apply _ _ _ _

/-- The reader never goes back. -/
theorem length_rest_antitone (o : Options) (css : String) : Antitone fun n => (after o css n).cursor.rest.length := by
  refine antitone_nat_of_succ_le fun n => ?_
  obtain ⟨m, hm⟩ := exists_advance o (after o css n)
  rw [after_succ, hm, advance, length_drop]
  exact Nat.sub_le _ _

/-- Steps at the end of the text do nothing, so what holds up to there holds from there on. -/
theorem forall_after (P : Reader → Prop) (m : Nat) (hrest : (after o css m).cursor.rest = [])
    (h : ∀ n ≤ m, P (after o css n)) (n : Nat) : P (after o css n) := by
  rcases Nat.le_total n m with hle | hle
  · exact h n hle
  · obtain ⟨k, rfl⟩ := Nat.exists_eq_add_of_le' hle
    rw [after_add, Function.iterate_fixed (next_of_nil hrest)]
    exact h m le_rfl

/-- The blank behind a text is passed in one step. -/
theorem rest_next_of_blank {r : Reader} (h : r.cursor.rest = [' ']) : (r.next o).cursor.rest = [] := by
  refine next_cases (P := fun r' => r'.cursor.rest = []) (by simp [h]) (fun hbrace => ?_) (fun _ _ _ _ => ?_)
  · simp [atSharedBrace, h] at hbrace
  · simp [advance, h]

/-- In front of the blank behind a text there is some of the text left. -/
theorem rest_ne_blank {m : Nat} (h : (after o css m).cursor.rest = [' ']) (hn : n < m) :
    (after o css n).cursor.rest ≠ [' '] := by
  intro hblank
  have hle := length_rest_antitone o css (Nat.succ_le_of_lt hn)
  simp only [Nat.succ_eq_add_one, after_succ, rest_next_of_blank hblank, h] at hle
  exact absurd hle (by decide)

/-! ## Inside of the first text -/

theorem alike_start : Alike (Preface.Extends {}) {} {} where
  mode := rfl
  returns := rfl
  selector := rfl
  property := rfl
  part := rfl
  parts := rfl
  string _ := ⟨rfl, rfl, rfl⟩
  bracket _ := ⟨rfl, rfl⟩
  origin _ := rfl
  document := ⟨⟨_, _, .root rfl rfl, empty_builds, empty_builds⟩, rfl, rfl, rfl, rfl⟩

/-- A stylesheet that leaves nothing open: it ends in a closing token, no comment in it is without an end, the name of
each at-rule with a body tells what that holds, and in front of the blank behind it the reader is between the blocks of
the root. -/
structure Complete (o : Options) (css : String) : Prop where
  closed : Sealed css.toList
  comments : ∀ n, (after o css n).atOpenComment = false
  bodies : ∀ n, (after o css n).atUnknownBody = false
  ends : ∃ n, (after o css n).cursor.rest = [' '] ∧ (after o css n).state.mode = .selector ∧
    (after o css n).state.openBlocks = [] ∧ (after o css n).state.selector = ""

/-- Up to the end of the first text both readers go the same way. -/
theorem after_inside (ho : o.preserveCss = true) (h : Complete o css₁) (css₂ : String) {m : Nat}
    (hm : (after o css₁ m).cursor.rest = [' ']) (hn : n ≤ m) :
    ∃ before v, (v = [] ∨ Sealed v) ∧ (after o css₁ n).cursor = ⟨before, v ++ [' ']⟩ ∧
      (after o (css₁ ++ css₂) n).cursor = ⟨before, v ++ sourceText css₂⟩ ∧
      Alike (Preface.Extends {}) (after o (css₁ ++ css₂) n).state (after o css₁ n).state := by
  induction n with
  | zero =>
    refine ⟨[], unifyLines css₁.toList, .inr (sealed_unifyLines h.closed), rfl, ?_, alike_start⟩
    rw [after_zero, start, sourceText_append h.closed, Cursor.start]
  | succ n ih =>
    obtain ⟨before, v, hv, hcursor, hcursor', halike⟩ := ih (Nat.le_of_succ_le hn)
    have hsealed : Sealed v := by
      refine hv.resolve_left fun hnil => rest_ne_blank hm hn ?_
      rw [hcursor, hnil, nil_append]
    have hsees : Sees o (after o css₁ n).state (after o (css₁ ++ css₂) n).cursor (after o css₁ n).cursor := by
      rw [hcursor, hcursor']
      refine Sees.of_sealed hsealed (by simp [sourceText]) ?_ ?_
      · rw [← hcursor]
        exact h.comments n
      · rw [← hcursor]
        exact h.bodies n
    obtain ⟨taken, hnext', hnext, hstate⟩ := next_alike (lasting_extends ho _) halike hsees (by simp [hcursor])
    rw [← after_succ, hcursor] at hnext
    rw [← after_succ, hcursor'] at hnext'
    rw [← after_succ, ← after_succ] at hstate
    -- the blank is not passed before the end
    have hlength : taken ≤ v.length := by
      have hle := length_rest_antitone o css₁ hn
      simp only [hm, hnext, advance, length_drop, length_append, length_singleton] at hle
      omega
    refine ⟨(v.take taken).reverse ++ before, v.drop taken, ?_, ?_, ?_, hstate⟩
    · rcases Nat.lt_or_eq_of_le hlength with hlt | rfl
      · exact .inr (hsealed.drop hlt)
      · exact .inl (drop_length)
    · rw [hnext, advance, take_append_of_le_length hlength, drop_append_of_le_length hlength]
    · rw [hnext', advance, take_append_of_le_length hlength, drop_append_of_le_length hlength]

/-! ## Inside of the second text -/

/-- A reader behind some other text is like the one that starts with this text. -/
theorem iterate_behind (ho : o.preserveCss = true) {p : Preface} {r : Reader} {front : List Char}
    (hbackslash : front.head? ≠ some '\\') (hequals : front.head? ≠ some '=')
    (hcursor : r.cursor = ⟨front, sourceText css⟩) (h : Alike p.Extends r.state {}) (n : Nat) :
    ((next o)^[n] r).cursor = ⟨(after o css n).cursor.before ++ front, (after o css n).cursor.rest⟩ ∧
      Alike p.Extends ((next o)^[n] r).state (after o css n).state := by
  induction n with
  | zero => exact ⟨hcursor, h⟩
  | succ n ih =>
    obtain ⟨hcursor, halike⟩ := ih
    rw [Function.iterate_succ_apply', after_succ]
    by_cases hrest : (after o css n).cursor.rest = []
    · rw [next_of_nil hrest, next_of_nil (by rw [hcursor, hrest])]
      exact ⟨hcursor, halike⟩
    · have hsees : Sees o (after o css n).state ((next o)^[n] r).cursor (after o css n).cursor := by
        rw [hcursor]
        exact Sees.of_behind hbackslash hequals _ _ _ _
      obtain ⟨taken, hnext, hnext', hstate⟩ := next_alike (lasting_extends ho _) halike hsees hrest
      refine ⟨?_, hstate⟩
      rw [hnext, hnext', hcursor]
      simp [advance]

/-! ## Between the texts -/

/-- The document of a state between the blocks of the root is a preface of the empty one. -/
theorem Extending.of_between {s t : State} (h : Extending {} s t) (hopen : t.openBlocks = []) :
    Extending t.document.preface s {} := by
  obtain ⟨fs, gs, hpreceded, hbuilds, hbuilds'⟩ := h.builds
  obtain ⟨f, fs, g, gs, rfl, rfl⟩ := hpreceded.exists_cons
  have hgs : gs = [] := by simpa [hopen] using hbuilds'.length_eq
  subst hgs
  have hfs : fs = [] := by simpa using hpreceded.length_eq
  subst hfs
  have hroot : s.openBlocks = [] := by simpa using hbuilds.length_eq.symm
  have hbefore : f.before = t.document.tree ++ Frame.root.before := by
    rw [hbuilds'.tree_eq, Frame.root, append_nil]
    exact hpreceded.before_closeAll
  refine ⟨⟨[f], [Frame.root], .root hbefore hbuilds.after_eq, hbuilds, empty_builds⟩, ?_, ?_, ?_, ?_⟩
  · rw [h.tokens]
    exact (append_nil _).symm
  · rw [h.charset]
    exact (Option.or_none).symm
  · rw [h.namespaces]
    exact (append_nil _).symm
  · rw [h.imports]
    exact (append_nil _).symm

/-- Between the blocks of the root, with an empty selector, nothing is left of what was read but the document. -/
theorem Alike.of_between {s t : State} {marks : List Mode} (h : Alike (Preface.Extends {}) s t) (horderly : Orderly t marks)
    (hmode : t.mode = .selector) (hopen : t.openBlocks = []) (hselector : t.selector = "") :
    Alike t.document.preface.Extends s {} := by
  have hreturns : t.returns = [] := by
    obtain ⟨base, pending, hpending, hreturns⟩ := horderly.returns
    have hmarks : marks = [] := eq_nil_of_length_eq_zero (by rw [horderly.marks_length, hopen, length_nil])
    rw [hmode] at hpending
    cases hpending with
    | selector => rw [hreturns, hmarks, append_nil]
  exact
    { mode := h.mode.trans hmode
      returns := h.returns.trans hreturns
      selector := h.selector.trans hselector
      property := h.property.trans (horderly.property_eq (.inl hmode))
      part := h.part.trans (horderly.part_eq (.inl hmode))
      parts := h.parts.trans (horderly.parts_eq (.inl hmode))
      string := fun hm => by simp at hm
      bracket := fun hm => by simp at hm
      origin := fun hm => by simp at hm
      document := Extending.of_between h.document hopen }

/-- The blank behind a complete stylesheet changes nothing, and neither does the end of the text. -/
theorem document_of_blank {n : Nat} (hrest : (after o css n).cursor.rest = [' '])
    (hmode : (after o css n).state.mode = .selector) (hselector : (after o css n).state.selector = "") :
    (read o css).1 = (after o css n).state.document := by
  have hnext : (after o css (n + 1)).state = (after o css n).state := by
    rw [after_succ]
    refine next_cases (P := fun r => r.state = (after o css n).state) (by simp [hrest]) (fun hbrace => ?_)
      (fun c tail hcons _ => ?_)
    · simp [atSharedBrace, hrest] at hbrace
    · rw [hrest] at hcons
      cases hcons
      have htoken : (after o css n).cursor.atToken = false := by
        simp [atToken, hrest, isTokenChar, tokenChars]
      simp [countLine, step, hmode, inSelector, htoken, spaceSelector, hselector, last?,
        isSpace]
  refine read_view id o css (n + 1) ?_ ?_
  · rw [after_succ]
    exact rest_next_of_blank hrest
  · simp [hnext, finish, finishString, finishBracket, finishWords, hmode]

/-- At the end of a complete stylesheet the reader of it and of what comes behind is like one that starts there, with
the document of the stylesheet as a preface. -/
theorem exists_between (ho : o.preserveCss = true) (h : Complete o css₁) (css₂ : String) :
    ∃ m front, front.head? ≠ some '\\' ∧ front.head? ≠ some '=' ∧
      (after o (css₁ ++ css₂) m).cursor = ⟨front, sourceText css₂⟩ ∧
      Alike (read o css₁).1.preface.Extends (after o (css₁ ++ css₂) m).state {} := by
  obtain ⟨m, hrest, hmode, hopen, hselector⟩ := h.ends
  obtain ⟨front, v, -, hcursor, hcursor', halike⟩ := after_inside ho h css₂ hrest le_rfl
  have hv : v = [] := by simpa [hcursor] using hrest
  rw [hv, nil_append] at hcursor hcursor'
  -- what stands in front of the second text ends in the closing token of the first one
  have hfront : front.head? = (unifyLines css₁.toList).getLast? := by
    have htext := text_after o css₁ m
    rw [hcursor, text, sourceText] at htext
    rw [← append_cancel_right htext, getLast?_reverse]
  have hsealed : front.head? = some '}' ∨ front.head? = some ';' := by
    rw [hfront]
    exact sealed_unifyLines h.closed
  have horderly := (Trail.after_tracked o css₁ m).orderly
  rw [Trail.reader_after] at horderly
  refine ⟨m, front, ?_, ?_, hcursor', ?_⟩
  · rcases hsealed with hhead | hhead <;> rw [hhead] <;> decide
  · rcases hsealed with hhead | hhead <;> rw [hhead] <;> decide
  · rw [document_of_blank hrest hmode hselector]
    exact halike.of_between horderly hmode hopen hselector

/-- **Complete stylesheets are read one by one.** Where the source is kept, what is read of a complete stylesheet with
anything behind it is what is read of the stylesheet, followed by what is read of the rest: the stream, the tree, the
imports and the namespaces. The character set is that of the first one which has one. -/
theorem read_append_of_complete (ho : o.preserveCss = true) (h : Complete o css₁) (css₂ : String) :
    let d := (Document.read o (css₁ ++ css₂)).1
    let d₁ := (Document.read o css₁).1
    let d₂ := (Document.read o css₂).1
    d.tokens = d₁.tokens ++ d₂.tokens ∧ d.tree = d₁.tree ++ d₂.tree ∧ d.imports = d₁.imports ++ d₂.imports ∧
      d.namespaces = d₁.namespaces ++ d₂.namespaces ∧ d.charset = d₁.charset.or d₂.charset := by
  intro d d₁ d₂
  obtain ⟨m, front, hbackslash, hequals, hcursor, hbetween⟩ := exists_between ho h css₂
  obtain ⟨n, hn⟩ := run_start_eq_after o css₂
  have hrest : (after o css₂ n).cursor.rest = [] := by
    rw [← hn]
    exact run_rest o _
  obtain ⟨hlast, hbehind⟩ := iterate_behind ho hbackslash hequals hcursor hbetween n
  rw [← after_add] at hlast hbehind
  have hd : d = ((after o (css₁ ++ css₂) (n + m)).state.finish o).document :=
    read_view id o _ (n + m) (by rw [hlast, hrest]) rfl
  have hd₂ : d₂ = ((after o css₂ n).state.finish o).document := read_view id o _ n hrest rfl
  have hextends := (finish_alike (lasting_extends ho _) hbehind).document
  rw [Related, ← hd, ← hd₂] at hextends
  exact ⟨hextends.tokens, hextends.tree_eq, hextends.imports, hextends.namespaces, hextends.charset⟩

/-- A rule about the document, a comment with a brace in it, and a block inside a block. -/
def importAndMedia : String := "@import 'a';/*\x7d*/@media tv\x7bb\x7bc:d\x7d\x7d"

/-- A character set that comes too late for the stylesheet in front of it, and a block that is not closed. -/
def charsetAndBlock : String := "@charset 'e';f\x7bg:h"

theorem complete_importAndMedia : Complete { preserveCss := true } importAndMedia where
  closed := .inl (by decide +kernel)
  comments := forall_after (·.atOpenComment = false) 21 (by decide +kernel) (by decide +kernel)
  bodies := forall_after (·.atUnknownBody = false) 21 (by decide +kernel) (by decide +kernel)
  ends := ⟨20, by decide +kernel⟩

theorem read_append_of_complete_importAndMedia :
    Complete { preserveCss := true } importAndMedia ∧
    (Document.read { preserveCss := true } (importAndMedia ++ charsetAndBlock)).1.tokens
      = (Document.read { preserveCss := true } importAndMedia).1.tokens
        ++ (Document.read { preserveCss := true } charsetAndBlock).1.tokens ∧
    (Document.read { preserveCss := true } (importAndMedia ++ charsetAndBlock)).1.tree
      = (Document.read { preserveCss := true } importAndMedia).1.tree
        ++ (Document.read { preserveCss := true } charsetAndBlock).1.tree :=
  have happend := read_append_of_complete (o := { preserveCss := true }) rfl complete_importAndMedia charsetAndBlock
  ⟨complete_importAndMedia, happend.1, happend.2.1⟩

end Stylesheet.Reader
