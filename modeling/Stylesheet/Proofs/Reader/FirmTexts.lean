import Stylesheet.Proofs.Reader.Sound

/-!
# Texts that leave their delimiters alone

When a document is written, every text in it is followed by a delimiter. As long as the reader comes upon no loose end,
what it stores is firm, so that no text escapes the delimiter behind it (`firm_read`). With a loose end it may not be:
the backslash in front of the space at the end of a value is stored without the space (`not_firm_looseColor`).

Each mode keeps the reader sound (`step_sound`), and so does the end of the text.
-/

namespace Stylesheet.Reader

open State List
open Text (Cursor IsFirm IsSolid isSpace isTokenChar oddBackslashes)
open String (singleton toList_append toList_push)

variable {o : Options} {k : Cursor} {s : State} {mode : Mode} {c : Char} {tail : List Char}

/-! ## Names -/

section Modes

variable {atSign base : Mode} {marks pending : List Mode}

/-- A token that is collected can end a text. -/
theorem poised_push {t : State} (text : String) (hrest : k.rest = c :: tail) (htoken : k.atToken = true) (hc : c ≠ '\\')
    (hstring : t.mode ≠ .string) (hbracket : t.mode ≠ .bracket) (ht : t.buffer t.mode = text.push c) :
    Poised (k.advance (0 + 1)) t := by
  have hspace := Text.isSpace_of_isTokenChar (Cursor.isTokenChar_of_atToken htoken hrest)
  refine .of_complete (free_of_cons hrest hc) (complete_of_solid hstring hbracket ?_)
  rw [ht]
  exact Text.isSolid_push text hc hspace

/-- A run that is collected can end a text. -/
theorem poised_readRun {t : State} (h : Poised k s) (hrest : k.rest = c :: tail) (htoken : k.atToken = false)
    (hspace : isSpace c = false) (hmode : t.mode = s.mode) (hstring : s.mode ≠ .string) (hbracket : s.mode ≠ .bracket)
    (ht : t.buffer s.mode = s.buffer s.mode ++ (readRun k c).1) :
    Poised (k.advance ((readRun k c).2 + 1)) t := by
  refine .of_complete (not_atEscapedToken (escaped_readRun hrest htoken hspace)) ?_
  rw [hmode]
  refine complete_of_solid hstring hbracket ?_
  rw [ht]
  exact h.isSolid_readRun hrest htoken hspace

theorem isFirm_trim_spaceSelector (h : IsFirm (Text.trim s.selector)) : IsFirm (Text.trim s.spaceSelector.selector) := by
  unfold spaceSelector
  split
  · exact h
  · split
    · exact h
    · exact (Text.isFirm_trim_push (by decide)).mpr h

theorem inSelector_sound (h : Steady s atSign marks .selector []) (hmode : s.mode = .selector) (hs : Sound k s)
    (hrest : k.rest = c :: tail) (hlast : k.rest.getLast? = some ' ') (hplain : k.atToken = true → c ≠ '\\') :
    Sound (k.advance ((s.inSelector o k c).2 + 1)) (s.inSelector o k c).1 := by
  obtain ⟨hproperty, hpart, hparts⟩ := h.buffers
  have hstring : s.mode ≠ .string := by simp [hmode]
  have hbracket : s.mode ≠ .bracket := by simp [hmode]
  have hpoised := hs.poised hstring hbracket
  have hfirm : s.mode ≠ .property → IsFirm (Text.trim s.property) := hs.property
  have hcomplete (htoken : k.atToken = true) (hc : c ∈ stops .selector) : IsFirm (Text.trim s.selector) :=
    hpoised.complete_of_stop hmode hrest htoken hc
  apply inSelector_cases (P := fun t n => Sound (k.advance (n + 1)) t)
  case space =>
    intro _ hspace
    have htrim := isFirm_trim_spaceSelector (s := s)
    obtain ⟨selector, heq⟩ := spaceSelector_eq s
    rw [heq] at htrim ⊢
    refine .of_name (.inl hmode) hs.document hfirm hpart hparts (hpoised.of_space hrest hspace rfl ?_)
    rw [hmode]
    exact htrim
  case run =>
    intro htoken hspace
    refine .of_name (.inl hmode) hs.document hfirm hpart hparts
      (poised_readRun hpoised hrest htoken hspace rfl hstring hbracket ?_)
    rw [hmode]
    rfl
  case comment => exact fun htoken hcomment => hs.readComment hstring hbracket hlast htoken hcomment
  case brace =>
    rintro htoken rfl
    have hdocument := firm_openSelector (o := o) hs.document (hcomplete htoken (by decide))
    obtain ⟨id, document, heq⟩ := openSelector_eq o s
    rw [heq] at hdocument ⊢
    exact .of_blank (.inr rfl) hdocument rfl hproperty hpart hparts (free_of_cons hrest (by decide))
  case comma =>
    rintro htoken rfl
    refine .of_name (.inl hmode) hs.document hfirm hpart hparts
      (poised_push (Text.trim s.selector) hrest htoken (by decide) hstring hbracket ?_)
    have hcomma : Text.trim s.selector ++ "," = (Text.trim s.selector).push ',' :=
      String.toList_injective (by simp [toList_append])
    rw [hmode]
    exact hcomma
  case atSign =>
    rintro htoken rfl -
    refine .of_poised (by simp) (by simp) hs.document (fun _ => hfirm (by simp [hmode]))
      (fun hnot => absurd mem_cons_self hnot) (.of_complete (free_of_cons hrest (by decide)) ?_)
    have hends : EndsFirm s.flushPart.parts := by
      rw [parts_flushPart hpart, hparts]
      exact endsFirm_nil
    exact hends
  case quote =>
    intro htoken hc
    have hstop : c ∈ stops .selector := by rcases hc with rfl | rfl <;> decide
    exact hs.beginString hrest hc _ hmode (by decide) (hcomplete htoken hstop)
  case close =>
    rintro - rfl
    have hdocument := firm_closeBlock (o := o) hs.document
    obtain ⟨document, heq⟩ := closeBlock_eq o s
    rw [heq] at hdocument ⊢
    rw [popMode_eq]
    refine .of_blank ?_ hdocument rfl hproperty hpart hparts (free_of_cons hrest (by decide))
    simpa only [h.returns, nil_append] using h.returnable.head
  case escape => exact fun htoken hc => absurd hc (hplain htoken)
  case universal =>
    rintro - rfl hnext
    have hfree : ¬ atEscapedToken (k.advance (0 + 1)) := free_of_cons hrest (by decide)
    refine .of_name (.inl hmode) hs.document hfirm hpart hparts ⟨fun h => absurd h hfree, fun _ => .inr ?_⟩
    -- what comes next is a token of the selector
    rw [hrest, drop_succ_cons, drop_zero] at hnext
    cases tail with
    | nil => cases hnext
    | cons d tail =>
      have hbehind : (k.advance (0 + 1)).rest = d :: tail := by
        rw [Cursor.advance, hrest]
        rfl
      have hgoes : goesOn .selector (d :: tail) = true := by
        simp only [head?_cons, Option.any_some, contains_iff_mem, mem_cons, not_mem_nil, or_false] at hnext
        rcases hnext with rfl | rfl | rfl | rfl <;> rfl
      rw [hbehind]
      exact hmode ▸ hgoes
  case other =>
    intro htoken
    refine .of_name (.inl hmode) hs.document hfirm hpart hparts
      (poised_push s.selector hrest htoken (hplain htoken) hstring hbracket ?_)
    rw [hmode]
    rfl

theorem inProperty_sound (h : Steady s atSign marks .property []) (hmode : s.mode = .property) (hs : Sound k s)
    (hrest : k.rest = c :: tail) (hlast : k.rest.getLast? = some ' ') (hplain : k.atToken = true → c ≠ '\\') :
    Sound (k.advance ((s.inProperty o k c).2 + 1)) (s.inProperty o k c).1 := by
  obtain ⟨hselector, hpart, hparts, -⟩ := h.buffers
  have hstring : s.mode ≠ .string := by simp [hmode]
  have hbracket : s.mode ≠ .bracket := by simp [hmode]
  have hpoised := hs.poised hstring hbracket
  have hany {p : Prop} (hne : s.mode ≠ .property) : p := absurd hmode hne
  have hcomplete (htoken : k.atToken = true) : s.Complete .property := by
    have hmem : c ∈ stops .property := contains_iff_mem.mp (Cursor.isTokenChar_of_atToken htoken hrest)
    exact hpoised.complete_of_stop hmode hrest htoken hmem
  have hends : EndsFirm s.flushPart.parts ∧ MarksFirm s.flushPart.parts := by
    rw [parts_flushPart hpart, hparts]
    exact ⟨endsFirm_nil, .nil⟩
  apply inProperty_cases (P := fun t n => Sound (k.advance (n + 1)) t)
  case space =>
    exact fun _ hspace => .of_name (.inr hmode) hs.document hs.property hpart hparts (hpoised.of_space hrest hspace rfl id)
  case run =>
    intro htoken hspace
    refine .of_name (.inr hmode) hs.document (fun hne => hany hne) hpart hparts
      (poised_readRun hpoised hrest htoken hspace rfl hstring hbracket ?_)
    rw [hmode]
    rfl
  case value =>
    intro htoken _ _
    exact .of_poised (by simp [pushMode]) (by simp [pushMode]) hs.document (fun _ => hcomplete htoken)
      (fun _ => hends.2) (.of_complete (free_of_cons hrest (hplain htoken)) hends.1)
  case comment => exact fun htoken hcomment => hs.readComment hstring hbracket hlast htoken hcomment
  case close =>
    rintro - rfl
    have hdocument := firm_closeBlock (o := o) hs.document
    obtain ⟨document, heq⟩ := closeBlock_eq o s
    rw [heq] at hdocument ⊢
    rw [popMode_eq]
    refine .of_blank ?_ hdocument rfl rfl hpart hparts (free_of_cons hrest (by decide))
    simpa only [h.returns, nil_append] using h.returnable.head
  case atSign =>
    intro htoken _ hempty
    have hproperty : s.property = "" := String.isEmpty_iff.mp hempty
    exact .of_poised (by simp) (by simp) hs.document (fun _ => by rw [hproperty]; decide)
      (fun hnot => absurd mem_cons_self hnot) (.of_complete (free_of_cons hrest (hplain htoken)) hends.1)
  case semicolon =>
    exact fun htoken _ => .of_blank (.inr hmode) hs.document hselector rfl hpart hparts
      (free_of_cons hrest (hplain htoken))
  case escape => exact fun htoken hc => absurd hc (hplain htoken)
  case first =>
    intro htoken
    refine .of_name (.inr hmode) hs.document (fun hne => hany hne) hpart hparts
      (poised_push s.property hrest htoken (hplain htoken) hstring hbracket ?_)
    rw [hmode]
    rfl
  case other =>
    exact fun htoken => .of_name (.inr hmode) hs.document hs.property hpart hparts
      (.of_complete (free_of_cons hrest (hplain htoken)) (hmode ▸ hcomplete htoken))

/-! ## Values and at-rules -/

/-- What a run adds to a part makes no exclamation mark of it: an exclamation mark that is read this way is escaped. -/
theorem exists_mem_readRun (h : Poised k s) (hpart : s.buffer s.mode = s.part) (hrest : k.rest = c :: tail)
    (htoken : k.atToken = false) (hspace : isSpace c = false) :
    ∃ d ∈ (s.part ++ (readRun k c).1).toList, isSpace d = false ∧ d ≠ '!' := by
  rw [toList_append]
  by_cases hc : c = '!'
  · subst hc
    have hescaped : k.escaped = true := by
      have htokenChar : isTokenChar '!' = true := by decide
      simpa [Cursor.atToken, hrest, htokenChar] using htoken
    have hodd := h.backslash ⟨hescaped, by rw [hrest]; rfl⟩
    rw [hpart] at hodd
    have hmem : '\\' ∈ s.part.toList := by
      by_contra hmem
      exact hodd (Text.isFirm_of_notMem hmem)
    exact ⟨'\\', mem_append_left _ hmem, by decide, by decide⟩
  · refine ⟨c, mem_append_right _ ?_, hspace, hc⟩
    unfold readRun
    simp only
    split
    · simp
    · next hrun =>
      have hordinary : Text.isOrdinary c = true := by
        by_contra hordinary
        rw [Cursor.ordinaryRun, hrest, takeWhile_cons_of_neg hordinary] at hrun
        exact hrun rfl
      rw [String.toList_ofList, Cursor.ordinaryRun, hrest, takeWhile_cons_of_pos hordinary]
      exact mem_cons_self

theorem inWords_sound (hmode : s.mode = .value ∨ s.mode = .atRule) (hs : Sound k s) (hrest : k.rest = c :: tail)
    (htoken : k.atToken = false) : Sound (k.advance ((s.inWords k c).2 + 1)) (s.inWords k c).1 := by
  have hstring : s.mode ≠ .string := by rcases hmode with h | h <;> simp [h]
  have hbracket : s.mode ≠ .bracket := by rcases hmode with h | h <;> simp [h]
  have hpart (t : State) : t.buffer s.mode = t.part := by rcases hmode with h | h <;> rw [h] <;> rfl
  have hpoised := hs.poised hstring hbracket
  refine inWords_cases (P := fun t n => Sound (k.advance (n + 1)) t) (fun hspace => ?_) (fun hspace => ?_)
  · have hflush (h : s.Complete s.mode) : s.flushPart.Complete s.mode := by
      rcases hmode with hmode | hmode <;> rw [hmode] at h ⊢ <;> exact endsFirm_flushPart_flushPart h
    exact .of_poised hstring hbracket hs.document hs.property (fun hnot => by rw [flushPart_flushPart]; exact hs.marks hnot)
      (hpoised.of_space hrest hspace rfl hflush)
  · obtain ⟨d, hd, hsolid, hmark⟩ := exists_mem_readRun hpoised (hpart s) hrest htoken hspace
    refine .of_poised hstring hbracket hs.document hs.property
      (fun hnot => marksFirm_of_mem (hs.marks hnot) hd hsolid hmark)
      (poised_readRun hpoised hrest htoken hspace rfl hstring hbracket ?_)
    rw [hpart, hpart]

/-- A mark is a part of its own. -/
theorem endsFirm_mark (parts : List String) {mark : String} (hmark : mark ≠ "" ∧ IsFirm mark) {t : State}
    (hpart : t.part = "") (hparts : t.parts = parts ++ [mark]) : EndsFirm t.flushPart.parts := by
  rw [parts_flushPart hpart, hparts]
  exact endsFirm_concat.mpr hmark

theorem inValue_sound (h : Steady s atSign marks .value [.property]) (hmode : s.mode = .value) (hs : Sound k s)
    (hrest : k.rest = c :: tail) (hlast : k.rest.getLast? = some ' ') (hplain : k.atToken = true → c ≠ '\\') :
    Sound (k.advance ((s.inValue o k c).2 + 1)) (s.inValue o k c).1 := by
  obtain ⟨hselector, -⟩ := h.buffers
  have hreturns : s.returns = .property :: marks := h.returns
  have hstring : s.mode ≠ .string := by simp [hmode]
  have hbracket : s.mode ≠ .bracket := by simp [hmode]
  have hpoised := hs.poised hstring hbracket
  have hproperty : IsFirm (Text.trim s.property) := hs.property (by simp [hmode])
  have hmarks : MarksFirm s.flushPart.parts := by
    apply hs.marks
    rw [hmode, hreturns]
    simpa using h.returnable.atRule_notMem
  have hcomplete (htoken : k.atToken = true) (hc : c ∈ stops .value) : EndsFirm s.flushPart.parts :=
    hpoised.complete_of_stop hmode hrest htoken hc
  -- where the text shows that nothing more is collected, what was collected may end
  have hspaced (hspace : isSpace c = true) (hends : goesOn .value k.rest = false) : EndsFirm s.flushPart.parts := by
    have hfree : ¬ atEscapedToken k := by
      apply not_atEscapedToken_of_head
      rw [hrest]
      exact Text.isTokenChar_of_isSpace hspace
    have hcomplete := (hpoised.ending hfree).resolve_right (by rw [hmode, hends]; decide)
    rwa [hmode] at hcomplete
  apply inValue_cases (P := fun t n => Sound (k.advance (n + 1)) t)
  case last =>
    intro hend
    rw [hrest, drop_succ_cons, drop_zero, List.isEmpty_iff] at hend
    have hc : c = ' ' := by
      rw [hrest, hend, getLast?_singleton] at hlast
      exact Option.some.inj hlast
    subst hend hc
    exact .endDeclaration hs.document hproperty (hspaced (by decide) (by rw [hrest]; rfl)) hmarks hreturns hselector
      (free_of_cons hrest (by decide))
  case inferred =>
    rintro rfl hfollows
    have hends : goesOn .value k.rest = false := by
      rw [hrest, drop_succ_cons, drop_zero] at hfollows
      rw [hrest, goesOn, if_pos (by decide), hfollows]
      rfl
    exact .endDeclaration (s := s.warn _) hs.document hproperty (hspaced (by decide) hends) hmarks hreturns hselector
      (free_of_cons hrest (by decide))
  case words => exact fun htoken _ => inWords_sound (.inl hmode) hs hrest htoken
  case comment => exact fun htoken hcomment => hs.readComment hstring hbracket hlast htoken hcomment
  case quote =>
    intro htoken hc
    have hstop : c ∈ stops .value := by rcases hc with rfl | rfl <;> decide
    exact hs.beginString hrest hc _ hmode (by decide) (hcomplete htoken hstop)
  case bracket =>
    intro _ _
    have hopen : '(' ∈ (s.part.push '(').toList := by simp
    exact ⟨hs.document, fun _ => hproperty, fun _ => marksFirm_of_mem hmarks hopen (by decide) (by decide),
      fun _ hne => absurd rfl hne, fun _ => hopen, fun hne => absurd hne (by simp [pushMode])⟩
  case mark =>
    intro htoken hc
    have hfirm : singleton c ≠ "" ∧ IsFirm (singleton c) := by rcases hc with rfl | rfl <;> decide
    have hbefore : singleton c = "!" → EndsFirm s.flushPart.parts := by
      rcases hc with rfl | rfl
      · exact fun hmark => absurd hmark (by decide)
      · exact fun _ => hcomplete htoken (by decide)
    refine .of_poised hstring hbracket hs.document hs.property (fun _ => ?_)
      (.of_complete (free_of_cons hrest (hplain htoken)) ?_)
    · rw [parts_flushPart rfl]
      exact marksFirm_concat.mpr ⟨hmarks, hbefore⟩
    · have hends : EndsFirm (flushPart { s.flushPart with parts := s.flushPart.parts ++ [singleton c] }).parts :=
        endsFirm_mark s.flushPart.parts hfirm rfl rfl
      exact hmode ▸ hends
  case escape => exact fun htoken hc => absurd hc (hplain htoken)
  case semicolon =>
    rintro htoken rfl
    exact .endDeclaration hs.document hproperty (hcomplete htoken (by decide)) hmarks hreturns hselector
      (free_of_cons hrest (by decide))
  case close =>
    rintro htoken rfl
    have hdocument := firm_closeBlock (o := o)
      (firm_endDeclaration (o := o) hs.document hproperty (hcomplete htoken (by decide)) hmarks)
    obtain ⟨document, heq⟩ := closeBlock_eq o (s.endDeclaration o)
    obtain ⟨document', heq'⟩ := exists_endDeclaration_eq o s
    rw [heq, heq'] at hdocument ⊢
    rw [popMode_eq]
    refine .of_blank ?_ hdocument rfl rfl rfl rfl (free_of_cons hrest (by decide))
    simpa only [cleared, hreturns, drop_succ_cons, drop_zero] using h.returnable.head
  case other =>
    intro htoken hmark hbackslash _ _
    have hspace := Text.isSpace_of_isTokenChar (Cursor.isTokenChar_of_atToken htoken hrest)
    refine .of_poised hstring hbracket hs.document hs.property
      (fun _ => marksFirm_of_mem (d := c) hmarks (by simp) hspace hmark)
      (poised_push s.part hrest htoken hbackslash hstring hbracket ?_)
    rw [hmode]
    rfl

theorem inAtRule_sound (h : Steady s atSign marks .atRule []) (hmode : s.mode = .atRule) (hs : Sound k s)
    (hrest : k.rest = c :: tail) (hlast : k.rest.getLast? = some ' ') (hplain : k.atToken = true → c ≠ '\\') :
    Sound (k.advance ((s.inAtRule o k c).2 + 1)) (s.inAtRule o k c).1 := by
  obtain ⟨hselector, hproperty, -, -⟩ := h.buffers
  have hstring : s.mode ≠ .string := by simp [hmode]
  have hbracket : s.mode ≠ .bracket := by simp [hmode]
  have hpoised := hs.poised hstring hbracket
  have hany {p : Prop} {returns : List Mode} (hnot : .atRule ∉ s.mode :: returns) : p :=
    absurd (hmode ▸ mem_cons_self) hnot
  have hcomplete (htoken : k.atToken = true) (hc : c ∈ stops .atRule) : EndsFirm s.flushPart.parts :=
    hpoised.complete_of_stop hmode hrest htoken hc
  apply inAtRule_cases (P := fun t n => Sound (k.advance (n + 1)) t)
  case words => exact fun htoken => inWords_sound (.inr hmode) hs hrest htoken
  case comment => exact fun htoken hcomment => hs.readComment hstring hbracket hlast htoken hcomment
  case quote =>
    intro htoken hc
    have hstop : c ∈ stops .atRule := by rcases hc with rfl | rfl <;> decide
    exact hs.beginString hrest hc _ hmode (by decide) (hcomplete htoken hstop)
  case bracket =>
    intro _ _
    have hopen : '(' ∈ (s.part.push '(').toList := by simp
    exact ⟨hs.document, fun _ => hs.property (by simp [hmode]), fun hnot => absurd (mem_cons_of_mem _ mem_cons_self)
      hnot, fun _ hne => absurd rfl hne, fun _ => hopen, fun hne => absurd hne (by simp [pushMode])⟩
  case semicolon =>
    rintro htoken rfl
    exact .endAtRule hs.document (hcomplete htoken (by decide)) hselector hproperty (free_of_cons hrest (by decide))
  case comma =>
    rintro htoken rfl
    refine .of_poised hstring hbracket hs.document hs.property (fun hnot => hany hnot)
      (.of_complete (free_of_cons hrest (by decide)) ?_)
    have hends : EndsFirm (flushPart { s.flushPart with parts := s.flushPart.parts ++ [","] }).parts :=
      endsFirm_mark s.flushPart.parts (by decide) rfl rfl
    exact hmode ▸ hends
  case brace =>
    rintro htoken rfl
    have hdocument := firm_openAtBlock (o := o) hs.document (hcomplete htoken (by decide)) (k.rest.drop 1)
    obtain ⟨document, heq⟩ := openAtBlock_eq o s (k.rest.drop 1)
    rw [heq] at hdocument ⊢
    generalize bodyOf s.flushPart.parts (k.rest.drop 1) = body at hdocument
    exact .of_blank (bodyMode_cases body) hdocument hselector hproperty rfl rfl (free_of_cons hrest (by decide))
  case escape => exact fun htoken hc => absurd hc (hplain htoken)
  case other =>
    intro htoken _
    refine .of_poised hstring hbracket hs.document hs.property (fun hnot => hany hnot)
      (poised_push s.part hrest htoken (hplain htoken) hstring hbracket ?_)
    rw [hmode]
    rfl

/-! ## Functions and strings -/

/-- The parenthesis of a function stays. -/
theorem mem_pushArgument (h : '(' ∈ s.part.toList) (c : Char) : '(' ∈ (s.pushArgument c).part.toList := by
  unfold pushArgument
  simp only
  split
  · exact h
  · split
    · next hblank =>
      -- what is dropped is a blank
      simp only [Bool.and_eq_true, beq_iff_eq, Text.last?] at hblank
      obtain ⟨front, hfront⟩ := getLast?_eq_some_iff.mp hblank.2
      rw [hfront, mem_append, mem_singleton] at h
      rw [toList_push, Text.dropLast, String.toList_ofList, hfront, dropLast_concat]
      exact mem_append_left _ (h.resolve_right (by decide))
    · rw [toList_push]
      exact mem_append_left _ h

/-- Behind the parenthesis that ends a function. -/
theorem Sound.closeBracket (h : Steady s atSign marks base pending) (hmode : s.mode = .bracket) (hs : Sound k s)
    {part function : String} {depth : Nat} {log : List Message} (hpart : part.toList.getLast? = some ')') {k' : Cursor}
    (hfree : ¬ atEscapedToken k') :
    Sound k' { s with mode := s.returns.head?.getD .value, returns := s.returns.tail, part, function, depth, log } := by
  have hsolid : IsSolid part := .of_getLast? hpart (by decide) (by decide)
  have hends : EndsFirm (flushPart { s with part }).parts := endsFirm_flushPart_of_solid hsolid
  have hproperty : IsFirm (Text.trim s.property) := hs.property (by simp [hmode])
  have hmem : ')' ∈ part.toList := mem_of_getLast? hpart
  have hinside := h.inside
  rw [hmode] at hinside
  rw [h.returns]
  cases hinside with
  | valueBracket =>
    have hmarks : MarksFirm (flushPart { s with part }).parts := by
      refine marksFirm_of_mem (hs.marks ?_) hmem (by decide) (by decide)
      rw [hmode, h.returns]
      simpa using h.returnable.atRule_notMem
    exact .of_poised (by simp) (by simp) hs.document (fun _ => hproperty) (fun _ => hmarks) (.of_complete hfree hends)
  | atBracket =>
    exact .of_poised (by simp) (by simp) hs.document (fun _ => hproperty)
      (fun hnot => absurd mem_cons_self hnot) (.of_complete hfree hends)

theorem inBracket_sound (h : Steady s atSign marks base pending) (hmode : s.mode = .bracket) (hs : Sound k s)
    (hrest : k.rest = c :: tail) : Sound (k.advance ((s.inBracket k c).2 + 1)) (s.inBracket k c).1 := by
  have hopen : '(' ∈ s.part.toList := hs.arguments hmode
  have hstays {k' : Cursor} {part : String} (depth : Nat) (hmem : '(' ∈ part.toList) :
      Sound k' { s with part, depth } :=
    ⟨hs.document, hs.property, fun hnot => marksFirm_of_mem (hs.marks hnot) hmem (by decide) (by decide),
      fun _ hne => absurd hmode hne, fun _ => hmem, fun hstring => absurd hstring (by simp [hmode])⟩
  have hpush {k' : Cursor} (depth : Nat) (d : Char) : Sound k' (({ s with depth } : State).pushArgument d) := by
    have hmem := mem_pushArgument (s := { s with depth }) hopen d
    obtain ⟨part, heq⟩ := pushArgument_eq { s with depth } d
    rw [heq] at hmem ⊢
    exact hstays depth hmem
  apply inBracket_cases (P := fun t n => Sound (k.advance (n + 1)) t)
  case space => exact fun _ => hpush s.depth ' '
  case run =>
    intro _
    refine hstays s.depth ?_
    rw [toList_append]
    exact mem_append_left _ hopen
  case quote => exact fun _ hc => hs.beginString hrest hc _ hmode (by decide) hopen
  case deeper => exact fun _ _ => hpush _ c
  case close =>
    rintro - rfl -
    obtain ⟨front, hfront⟩ := part_pushArgument_close { s with depth := s.depth - 1 }
    obtain ⟨part, heq⟩ := pushArgument_eq { s with depth := s.depth - 1 } ')'
    rw [heq] at hfront ⊢
    rw [popMode_eq]
    refine .closeBracket h hmode hs ?_ (free_of_cons hrest (by decide))
    rw [hfront, getLast?_concat]
  case shallower => exact fun _ _ _ => hpush _ c
  case comma => exact fun _ _ => hpush s.depth c

theorem inString_sound (hmode : s.mode = .string) (hs : Sound k s) (hrest : k.rest = c :: tail) :
    Sound (k.advance ((s.inString o k c).2 + 1)) (s.inString o k c).1 := by
  obtain ⟨hquote, ⟨content, hopened⟩, hescaped, mode, returns, hreturns, hproperty, hcomplete⟩ := hs.quoting hmode
  have hstays {string : String} {log : List Message} (hopened : ∃ content, string.toList = s.quote :: content)
      (hescaped : (k.advance (0 + 1)).escaped = oddBackslashes string.toList.reverse) :
      Sound (k.advance (0 + 1)) { s with string, log } :=
    ⟨hs.document, hs.property, hs.marks, fun hne => absurd hmode hne, fun h => absurd h (by simp [hmode]),
      fun _ => ⟨hquote, hopened, hescaped, mode, returns, hreturns, hproperty, complete_congr rfl rfl rfl rfl hcomplete⟩⟩
  apply inString_cases (P := fun t n => Sound (k.advance (n + 1)) t)
  case newline =>
    rintro - rfl
    refine hstays ⟨content ++ "\\A ".toList, by rw [toList_append, hopened, cons_append]⟩ ?_
    rw [Cursor.escaped_advance_one hrest, toList_append, reverse_append]
    rfl
  case close =>
    rintro hfree rfl
    -- no backslash of the content is left over for the quote
    have hfirm : oddBackslashes content.reverse = false := by
      have hbackslash : s.quote ≠ '\\' := by rcases hquote with hq | hq <;> rw [hq] <;> decide
      rw [hfree, hopened, reverse_cons, Text.oddBackslashes_append] at hescaped
      · exact hescaped.symm
      · rw [Text.oddBackslashes_cons, beq_eq_false_iff_ne.mpr hbackslash, Bool.false_and]
    have hclosed : (s.string.push s.quote).toList = s.quote :: content ++ [s.quote] := by
      rw [toList_push, hopened]
    generalize s.string.push s.quote = string at hclosed
    have htext : IsSolid (stringText o { s with string }) := isSolid_stringText hquote hclosed hfirm
    refine .closeString hs.document (hs.property (by simp [hmode])) (fun hnot => hs.marks ?_) hreturns hproperty
      (complete_congr rfl rfl rfl rfl hcomplete) htext (free_of_cons hrest ?_)
    · rw [hmode, mem_cons, not_or]
      exact ⟨by decide, hnot⟩
    · rcases hquote with hq | hq <;> rw [hq] <;> decide
  case other =>
    refine hstays ⟨content ++ [c], by rw [toList_push, hopened, cons_append]⟩ ?_
    rw [Cursor.escaped_advance_one hrest, toList_push, reverse_append, reverse_singleton,
      singleton_append, Text.oddBackslashes_cons, hescaped]

/-! ## Escapes -/

theorem property_putText (text : String) (hmode : s.mode ≠ .property) : (s.putText text).property = s.property := by
  unfold putText
  split
  · rfl
  · next h => exact absurd h hmode
  · rfl

theorem returns_putText (s : State) (text : String) : (s.putText text).returns = s.returns := by
  unfold putText
  split <;> rfl

/-- No escape makes an exclamation mark of a part. -/
theorem marksFirm_putText (h : MarksFirm s.flushPart.parts) (drop : Bool) (after : List Char) :
    MarksFirm (s.putText (Text.Escape.read drop after).text).flushPart.parts := by
  unfold putText
  split
  · exact h
  · exact h
  · by_cases htext : (Text.Escape.read drop after).text = ""
    · rw [htext, String.append_empty]
      exact h
    · obtain ⟨d, hd, hspace⟩ := exists_mem_read htext
      have hmark : d ≠ '!' := by
        rintro rfl
        exact Text.Escape.mark_notMem_read drop after hd
      refine marksFirm_of_mem h (d := d) ?_ hspace hmark
      rw [toList_append]
      exact mem_append_right _ hd

theorem escape_sound (hs : Sound k s) (hat : atEscape ⟨k, s⟩) (hloose : ¬ LooseEnd o ⟨k, s⟩) {after : List Char}
    (hrest : k.rest = '\\' :: after) (hmore : after ≠ []) :
    Sound (k.advance ((s.step o k '\\').2 + 1)) (s.step o k '\\').1 := by
  obtain ⟨hstring, hbracket, -, -⟩ :
    s.mode ≠ .string ∧ s.mode ≠ .bracket ∧ k.atToken = true ∧ k.rest.head? = some '\\' := id hat
  have hstep := step_of_atEscape (o := o) hat (by rw [hrest]; exact hmore)
  have hread := readEscape_of_cons (o := o) (s := s) hrest
  rcases hescape : s.readEscape o k with ⟨text, t, n⟩
  obtain ⟨line, new, -, rfl⟩ := readEscape_eq hescape
  rw [hescape] at hstep hread
  obtain ⟨rfl, rfl⟩ := hread
  rw [hstep]
  have hpoised : Poised k { s with line, log := s.log ++ new } :=
    ⟨(hs.poised hstring hbracket).backslash, (hs.poised hstring hbracket).ending⟩
  have hput := hpoised.putText (o := o) hat hloose hrest
  refine .of_poised ?_ ?_ ?_ ?_ ?_ hput
  · rwa [mode_putText]
  · rwa [mode_putText]
  · rw [document_putText]
    exact hs.document
  · rw [mode_putText]
    intro hproperty
    rw [property_putText _ hproperty]
    exact hs.property hproperty
  · rw [mode_putText, returns_putText]
    exact fun hnot => marksFirm_putText (s := { s with line, log := s.log ++ new }) (hs.marks hnot) _ _

end Modes

/-! ## Runs -/

/-- A step that starts at no loose end. -/
theorem step_sound {atSign : Mode} {marks : List Mode} (h : Tracked s atSign marks) (hs : Sound k s)
    (hrest : k.rest = c :: tail) (hlast : k.rest.getLast? = some ' ') (hloose : ¬ LooseEnd o ⟨k, s⟩) :
    Sound (k.advance ((s.step o k c).2 + 1)) (s.step o k c).1 := by
  obtain ⟨base, pending, h⟩ := h
  by_cases hat : atEscape ⟨k, s⟩
  · have hc : c = '\\' := by
      have hhead : k.rest.head? = some '\\' := hat.2.2.2
      rw [hrest] at hhead
      exact Option.some.inj hhead
    subst hc
    refine escape_sound hs hat hloose hrest ?_
    rintro rfl
    rw [hrest] at hlast
    exact absurd hlast (by decide)
  · have hplain (hstring : s.mode ≠ .string) (hbracket : s.mode ≠ .bracket) (htoken : k.atToken = true) : c ≠ '\\' := by
      rintro rfl
      exact hat ⟨hstring, hbracket, htoken, by rw [hrest]; rfl⟩
    unfold step
    cases hmode : s.mode with
    | selector =>
      exact inSelector_sound (h.ofMode hmode (by decide) (by decide)) hmode hs hrest hlast
        (hplain (by simp [hmode]) (by simp [hmode]))
    | property =>
      exact inProperty_sound (h.ofMode hmode (by decide) (by decide)) hmode hs hrest hlast
        (hplain (by simp [hmode]) (by simp [hmode]))
    | value =>
      exact inValue_sound (h.ofMode hmode (by decide) (by decide)) hmode hs hrest hlast
        (hplain (by simp [hmode]) (by simp [hmode]))
    | string => exact inString_sound hmode hs hrest
    | bracket => exact inBracket_sound h hmode hs hrest
    | atRule =>
      exact inAtRule_sound (h.ofMode hmode (by decide) (by decide)) hmode hs hrest hlast
        (hplain (by simp [hmode]) (by simp [hmode]))

/-- Lines and messages do not matter. -/
theorem Sound.withLog (h : Sound k s) (line : Nat) (log : List Message) : Sound k { s with line, log } :=
  ⟨h.document, h.property, h.marks,
    fun hstring hbracket => ⟨(h.poised hstring hbracket).backslash, (h.poised hstring hbracket).ending⟩, h.arguments,
    fun hstring => ⟨(h.quoting hstring).quote, (h.quoting hstring).opened, (h.quoting hstring).escaped,
      (h.quoting hstring).interrupts⟩⟩

theorem next_sound {r : Reader} {atSign : Mode} {marks : List Mode} (h : Tracked r.state atSign marks)
    (hs : Sound r.cursor r.state) (hlast : r.cursor.rest.getLast? = some ' ') (hloose : ¬ LooseEnd o r) :
    Sound (r.next o).cursor (r.next o).state := by
  have hne : r.cursor.rest ≠ [] := by
    intro hnil
    simp [hnil] at hlast
  refine next_cases (P := fun r' => Sound r'.cursor r'.state) hne (fun hbrace => ?_) (fun c tail hrest _ => ?_)
  · -- the brace that ends the rule is left in place
    obtain ⟨hmode, hhead, hescaped⟩ := (atSharedBrace_iff r).mp hbrace
    obtain ⟨tail, hrest⟩ := head?_eq_some_iff.mp hhead
    obtain ⟨base, pending, h⟩ := h
    obtain ⟨hselector, hproperty, -, -⟩ := (h.ofMode hmode (by decide) (by decide)).buffers
    have htoken : r.cursor.atToken = true := by
      rw [Cursor.atToken, hrest, hescaped]
      rfl
    have hcomplete := (hs.poised (by simp [hmode]) (by simp [hmode])).complete_of_stop hmode hrest htoken (by decide)
    exact .endAtRule hs.document hcomplete hselector hproperty (not_atEscapedToken hescaped)
  · obtain ⟨line, hline⟩ := r.state.countLine_eq c
    rw [hline]
    exact step_sound (h.withLine line) (hs.withLog line r.state.log) hrest hlast hloose

/-- **In front of every step** what is stored is firm, and what is collected will be, as long as there is no loose
end. -/
theorem after_sound {css : String} (h : ∀ n, ¬ LooseEnd o (after o css n)) (n : Nat) :
    Sound (after o css n).cursor (after o css n).state := by
  induction n with
  | zero => exact .of_blank (.inl rfl) Document.firm_empty rfl rfl rfl rfl (not_atEscapedToken rfl)
  | succ n ih =>
    rw [after_succ]
    by_cases hrest : (after o css n).cursor.rest = []
    · rwa [next_of_nil hrest]
    · have htracked := Trail.after_tracked o css n
      rw [Trail.reader_after] at htracked
      refine next_sound htracked ih ?_ (h n)
      have htext := congrArg getLast? (text_after o css n)
      rwa [Cursor.text, getLast?_append_of_ne_nil _ hrest, sourceText, getLast?_concat] at htext

/-! ## The end of the text -/

section End

variable {atSign : Mode} {marks : List Mode} (hrest : k.rest = [])

include hrest

theorem free_of_nil : ¬ atEscapedToken k := not_atEscapedToken_of_head (by rw [hrest]; rfl)

variable (hs : Sound k s)

include hs

theorem finishString_sound : Sound k (s.finishString o) := by
  unfold finishString
  split
  · next hmode =>
    simp only
    have hs : Sound k (s.warn "Unterminated string closed at end of input") := hs.withLog s.line _
    have hmode : (s.warn "Unterminated string closed at end of input").mode = .string := hmode
    generalize s.warn "Unterminated string closed at end of input" = t at hs hmode
    obtain ⟨hquote, hopened, -, mode, returns, hreturns, hproperty, hcomplete⟩ := hs.quoting hmode
    obtain ⟨content, hcontent, hfirm⟩ := exists_closedString hquote hopened
    generalize t.closedString = string at hcontent
    have htext : IsSolid (stringText o { t with string }) := isSolid_stringText hquote hcontent hfirm
    refine .closeString hs.document (hs.property (by simp [hmode])) (fun hnot => hs.marks ?_) hreturns hproperty
      (complete_congr rfl rfl rfl rfl hcomplete) htext (free_of_nil hrest)
    rw [hmode, mem_cons, not_or]
    exact ⟨by decide, hnot⟩
  · exact hs

theorem finishBracket_sound (h : Tracked s atSign marks) : Sound k s.finishBracket := by
  unfold finishBracket
  split
  · next hmode =>
    obtain ⟨base, pending, h⟩ := h
    simp only
    rw [popMode_eq]
    refine .closeBracket h hmode hs ?_ (free_of_nil hrest)
    have hne (depth : Nat) : replicate (max depth 1) ')' ≠ [] := by simp
    rw [toList_append, String.toList_ofList, getLast?_append_of_ne_nil _ (hne _), getLast?_replicate, if_neg (by omega)]
  · exact hs

theorem firm_finishWords (h : Tracked s atSign marks) : (s.finishWords o).document.Firm := by
  have hcomplete (hstring : s.mode ≠ .string) (hbracket : s.mode ≠ .bracket) : s.Complete s.mode := by
    refine ((hs.poised hstring hbracket).ending (free_of_nil hrest)).resolve_right ?_
    rw [hrest, goesOn]
    decide
  unfold finishWords
  split
  · next hmode =>
    have hends := hcomplete (by simp [hmode]) (by simp [hmode])
    rw [hmode] at hends
    refine firm_endDeclaration hs.document (hs.property (by simp [hmode])) hends (hs.marks ?_)
    obtain ⟨base, pending, h⟩ := h
    have h := h.ofMode hmode (by decide) (by decide)
    rw [hmode, h.returns]
    simpa using h.returnable.atRule_notMem
  · next hmode =>
    have hends := hcomplete (by simp [hmode]) (by simp [hmode])
    rw [hmode] at hends
    exact firm_endAtRule hs.document hends
  · exact hs.document

end End

/-! ## The document -/

/-- **Stored texts leave their delimiters alone.** If no escape is kept with nothing but space behind it, every name,
property and value of the document, and every at-rule, ends with an even number of backslashes, whatever the options. So
the brace, colon or semicolon that is written behind it is not escaped. -/
theorem firm_read {css : String} (h : ∀ n, ¬ LooseEnd o (after o css n)) : (Document.read o css).1.Firm := by
  obtain ⟨n, hn⟩ := run_start_eq_after o css
  have hs := after_sound h n
  have hrest : (after o css n).cursor.rest = [] := by
    rw [← hn]
    exact run_rest o (start css)
  have htracked := Trail.after_tracked o css n
  rw [Trail.reader_after] at htracked
  obtain ⟨atSign, marks, hstring⟩ := finishString_tracked (o := o) htracked
  unfold Document.read
  rw [hn]
  have hbracket := finishBracket_tracked hstring
  exact firm_finishWords hrest (finishBracket_sound hrest (finishString_sound hrest hs) hstring) hbracket

/-- Escapes with something behind their space, and an escaped semicolon. -/
def escapedNames : String := "a\\ .b\x7bcolor\\9 :red\\;\\ x\x7d"

theorem firm_read_escapedNames :
    (∀ n, ¬ LooseEnd {} (after {} escapedNames n)) ∧ (Document.read {} escapedNames).1.Firm := by
  have hnone : ∀ n, ¬ LooseEnd {} (after {} escapedNames n) :=
    forall_after (fun r => ¬ LooseEnd {} r) 16 (by decide +kernel) (by decide +kernel)
  exact ⟨hnone, firm_read hnone⟩

/-- A value that ends with an escaped blank. -/
def looseColor : String := "a\x7bcolor:red\\ ;\x7d"

/-- **A loose end**: the blank is dropped at the end of the value and the backslash is not, so that it escapes the brace
or the semicolon behind it. -/
theorem not_firm_looseColor : ¬ (Document.read {} looseColor).1.Firm := by
  intro h
  have hentries := read_view (fun d => (d.get? ⟨1⟩).map (·.declarations.entries)) {} looseColor 9 (by decide +kernel)
    (by decide +kernel : _ = some [("color", ⟨"red\\", false⟩)])
  obtain ⟨b, hb, hentries⟩ := Option.map_eq_some_iff.mp hentries
  have hfirm := (h.blocks ⟨1⟩ b hb).declarations ("color", ⟨"red\\", false⟩) (by rw [hentries]; exact List.mem_cons_self)
  exact absurd hfirm.2 (by decide)

end Stylesheet.Reader
