import Stylesheet.Proofs.Declarations.Order
import Stylesheet.Proofs.Reader.Table
import Stylesheet.Proofs.Text.Cursor
import Stylesheet.Proofs.Value.Measure
import Stylesheet.Proofs.Value.Parts

/-!
# Delimiters in values

A semicolon or a closing brace gets into a value in a string, among the arguments of a function or behind a backslash.
In a stylesheet without quotes, opening parentheses and backslashes there is none of these, so that the reader never
gets into a string or a function (`after_flat`) and no value has a delimiter (`read_undelimited`).
-/

namespace Stylesheet

open List String

/-- The text has neither a semicolon nor a closing brace. -/
def Undelimited (text : String) : Prop := ∀ c ∈ text.toList, c ≠ ';' ∧ c ≠ '}'

namespace Undelimited

theorem empty : Undelimited "" := nofun

theorem append {a b : String} (ha : Undelimited a) (hb : Undelimited b) : Undelimited (a ++ b) := by
  intro c hc
  rw [toList_append] at hc
  exact (mem_append.mp hc).elim (ha c) (hb c)

theorem singleton {c : Char} (hsemicolon : c ≠ ';') (hbrace : c ≠ '}') : Undelimited (singleton c) := by
  intro d hd
  rw [toList_singleton] at hd
  rw [mem_singleton.mp hd]
  exact ⟨hsemicolon, hbrace⟩

theorem trim {a : String} (ha : Undelimited a) : Undelimited (Text.trim a) := by
  intro c hc
  obtain ⟨left, right, hsplit, -, -⟩ := Text.exists_trimBoth Text.isSpace a.toList
  rw [Text.trim, toList_ofList] at hc
  apply ha
  rw [hsplit]
  exact mem_append_left _ (mem_append_right _ hc)

theorem of_isMeasure {a : String} (h : Value.IsMeasure a) : Undelimited a := by
  intro c hc
  have hchar := h.chars c hc
  exact ⟨Value.ne_of_isMeasureChar hchar (by decide), Value.ne_of_isMeasureChar hchar (by decide)⟩

theorem quoteFormat? {a b : String} (ha : Undelimited a) (h : Text.quoteFormat? a = some b) : Undelimited b := by
  unfold Text.quoteFormat? at h
  split at h
  · next name hname =>
    have hsub : name.toList ⊆ a.toList := by
      obtain ⟨behind, hbehind, hend⟩ := Option.bind_eq_some_iff.mp hname
      unfold Text.dropStart? at hbehind
      unfold Text.dropEnd? at hend
      split at hbehind
      · split at hend
        · obtain rfl := Option.some.inj hbehind
          obtain rfl := Option.some.inj hend
          intro c hc
          rw [toList_ofList] at hc
          have hdrop := mem_of_mem_take hc
          rw [toList_ofList] at hdrop
          exact mem_of_mem_drop hdrop
        · cases hend
      · cases hbehind
    have hopen : Undelimited "format(\"" := fun c hc => by
      simp only [reduceToList, mem_cons, not_mem_nil, or_false] at hc
      rcases hc with rfl | rfl | rfl | rfl | rfl | rfl | rfl | rfl <;> decide
    have hclose : Undelimited "\")" := fun c hc => by
      simp only [reduceToList, mem_cons, not_mem_nil, or_false] at hc
      rcases hc with rfl | rfl <;> decide
    split at h
    · cases h
    · obtain rfl := Option.some.inj h
      exact (hopen.append fun c hc => ha c (hsub hc)).append hclose
  · cases h

theorem tidyPart {part : String} (h : Undelimited part) (o : Options) (property : String) (line : Nat) :
    Undelimited (Reader.State.tidyPart o property line part).1 := by
  rcases Reader.State.tidyPart_cases o property line part with heq | ⟨-, hmeasure⟩ | hformat
  · rwa [heq]
  · exact of_isMeasure hmeasure
  · exact h.quoteFormat? hformat

theorem joinParts {parts : List String} (h : ∀ part ∈ parts, Undelimited part) : Undelimited (Value.joinParts parts) := by
  unfold Value.joinParts
  induction parts using reverseRecOn with
  | nil => exact empty
  | append_singleton parts part ih =>
    have hparts := ih fun p hp => h p (mem_append_left _ hp)
    have hpart := h part (by simp)
    rw [foldl_append, foldl_cons, foldl_nil]
    generalize parts.foldl Value.Joined.add ⟨"", false⟩ = j at hparts ⊢
    have hblank : Undelimited (if j.text.isEmpty || j.glued then j.text else j.text.push ' ') := by
      split
      · exact hparts
      · rw [push_eq_append]
        exact hparts.append (singleton (by decide) (by decide))
    unfold Value.Joined.add
    simp only
    split
    · exact hparts
    · split
      · rw [push_eq_append]
        exact hparts.append (singleton (by decide) (by decide))
      · split
        · rw [push_eq_append]
          exact hblank.append (singleton (by decide) (by decide))
        · exact hblank.append hpart

end Undelimited

namespace Reader

open State

variable {o : Options}

/-- Cutting off the mark of importance leaves parts. -/
theorem cutImportant_subset (parts : List String) : (cutImportant parts).1 ⊆ parts := by
  unfold cutImportant
  split
  · next word mark rest hreverse =>
    split
    · intro part hpart
      rw [← mem_reverse, hreverse]
      exact mem_cons_of_mem _ (mem_cons_of_mem _ (mem_reverse.mp hpart))
    · exact List.Subset.refl _
  · exact List.Subset.refl _

theorem undelimited_flushPart {s : State} (hpart : Undelimited s.part) (hparts : ∀ part ∈ s.parts, Undelimited part) :
    ∀ part ∈ s.flushPart.parts, Undelimited part := by
  intro part hmem
  unfold flushPart at hmem
  simp only at hmem
  split at hmem
  · exact hparts part hmem
  · rcases mem_append.mp hmem with hmem | hmem
    · exact hparts part hmem
    · rw [mem_singleton.mp hmem]
      exact hpart.trim

theorem undelimited_declaration? {s : State} (hpart : Undelimited s.part)
    (hparts : ∀ part ∈ s.parts, Undelimited part) {d : Declaration} (hd : s.declaration? o = some d) :
    Undelimited d.2.text := by
  rw [(of_declaration? hd).text]
  refine Undelimited.joinParts (fun tidied htidied => ?_)
  obtain ⟨part, hmem, rfl⟩ := mem_map.mp htidied
  exact (undelimited_flushPart hpart hparts part (cutImportant_subset _ hmem)).tidyPart o _ _

/-! ## The invariant -/

/-- A character that opens no string and no function, and escapes nothing. -/
def isFlatChar (c : Char) : Bool := !(['"', '\'', '(', '\\'].contains c)

/-- Neither a string nor a function is being read. -/
def Mode.IsFlat (mode : Mode) : Prop := mode ≠ .string ∧ mode ≠ .bracket

instance : DecidablePred Mode.IsFlat := fun mode => inferInstanceAs (Decidable (mode ≠ .string ∧ mode ≠ .bracket))

/-- The state is in no string and in no function, and what it has read of a value has no delimiter. -/
structure Flat (s : State) : Prop where
  modes : ∀ mode ∈ s.mode :: s.returns, mode.IsFlat
  part : Undelimited s.part
  parts : ∀ part ∈ s.parts, Undelimited part

namespace Flat

variable {s t : State}

/-- Only modes and the parts of values matter. -/
theorem congr (h : Flat s) (hmode : t.mode = s.mode) (hreturns : t.returns = s.returns) (hpart : t.part = s.part)
    (hparts : t.parts = s.parts) : Flat t := by
  obtain ⟨hmodes, hs, hss⟩ := h
  exact ⟨by rwa [hmode, hreturns], by rwa [hpart], by rwa [hparts]⟩

theorem popMode (h : Flat s) {mode : Mode} (hmode : mode.IsFlat) : Flat (s.popMode mode) := by
  rw [popMode_eq]
  refine ⟨?_, h.part, h.parts⟩
  intro m hm
  cases hreturns : s.returns with
  | nil =>
    rw [hreturns] at hm
    rw [mem_singleton.mp hm]
    exact hmode
  | cons back returns =>
    rw [hreturns] at hm
    exact h.modes m (mem_cons_of_mem _ (hreturns ▸ hm))

theorem closeBlock (h : Flat s) : Flat (s.closeBlock o) := by
  obtain ⟨document, heq⟩ := closeBlock_eq o s
  rw [heq]
  exact h.congr rfl rfl rfl rfl

theorem readComment (h : Flat s) (k : Text.Cursor) : Flat (s.readComment o k).1 := by
  obtain ⟨line, document, heq⟩ := readComment_eq o s k
  rw [heq]
  exact h.congr rfl rfl rfl rfl

theorem flushPart (h : Flat s) : Flat s.flushPart :=
  ⟨h.modes, .empty, undelimited_flushPart h.part h.parts⟩

theorem endDeclaration (h : Flat s) : Flat (s.endDeclaration o) := by
  obtain ⟨document, heq⟩ := exists_endDeclaration_eq o s
  rw [heq]
  exact ⟨h.modes, .empty, nofun⟩

theorem bodyMode_flat (body : Keyword.AtBody) : (bodyMode body).IsFlat := by
  cases body <;> decide

theorem endAtRule (h : Flat s) : Flat (s.endAtRule o) := by
  obtain ⟨document, new, -, heq⟩ := endAtRule_eq o s
  rw [heq]
  exact ⟨forall_mem_cons.mpr ⟨bodyMode_flat _, (forall_mem_cons.mp h.modes).2⟩, .empty, nofun⟩

theorem openAtBlock (h : Flat s) (body : List Char) : Flat (s.openAtBlock o body) := by
  obtain ⟨document, heq⟩ := openAtBlock_eq o s body
  have hinner := bodyMode_flat (bodyOf s.flushPart.parts body)
  generalize bodyMode (bodyOf s.flushPart.parts body) = mode at heq hinner
  have hreturns : ∀ mode ∈ bodyMode s.origin :: s.returns, mode.IsFlat :=
    forall_mem_cons.mpr ⟨bodyMode_flat s.origin, (forall_mem_cons.mp h.modes).2⟩
  rw [heq]
  exact ⟨forall_mem_cons.mpr ⟨hinner, hreturns⟩, .empty, nofun⟩

/-- Turning to another mode. -/
theorem enter (h : Flat s) (m : Mode) (hm : m.IsFlat) (hmode : t.mode = m)
    (hreturns : t.returns = s.returns) (hpart : t.part = s.part) (hparts : t.parts = s.parts) : Flat t := by
  refine ⟨?_, hpart ▸ h.part, hparts ▸ h.parts⟩
  rw [hmode, hreturns]
  exact forall_mem_cons.mpr ⟨hm, (forall_mem_cons.mp h.modes).2⟩

/-- Turning to another mode that comes back to a third one. -/
theorem enterFrom (h : Flat s) (m back : Mode) (hm : m.IsFlat)
    (hback : back.IsFlat) (hmode : t.mode = m) (hreturns : t.returns = back :: s.returns)
    (hpart : t.part = s.part) (hparts : t.parts = s.parts) : Flat t := by
  refine ⟨?_, hpart ▸ h.part, hparts ▸ h.parts⟩
  rw [hmode, hreturns]
  exact forall_mem_cons.mpr ⟨hm, forall_mem_cons.mpr ⟨hback, (forall_mem_cons.mp h.modes).2⟩⟩

/-- What a run adds to a word has no delimiter, unless it is one that is escaped. -/
theorem readRun {k : Text.Cursor} {c : Char} {tail : List Char} (hrest : k.rest = c :: tail)
    (htoken : k.atToken = false) (hescaped : k.escaped = false) (hspace : Text.isSpace c = false) :
    Undelimited (State.readRun k c).1 := by
  have hordinary : Text.isOrdinary c = true := by
    have hc : Text.isTokenChar c = false := by simpa [Text.Cursor.atToken, hrest, hescaped] using htoken
    simp [Text.isOrdinary, hc, hspace]
  unfold State.readRun
  simp only
  split
  · exact .singleton (Text.ne_of_isOrdinary hordinary (by decide)) (Text.ne_of_isOrdinary hordinary (by decide))
  · intro d hd
    rw [toList_ofList] at hd
    have hd : Text.isOrdinary d = true := mem_takeWhile_imp hd
    exact ⟨Text.ne_of_isOrdinary hd (by decide), Text.ne_of_isOrdinary hd (by decide)⟩

end Flat

section Modes

variable {s : State} {k : Text.Cursor} {c : Char} {tail : List Char}

theorem isFlatChar_iff : isFlatChar c = true ↔ c ≠ '"' ∧ c ≠ '\'' ∧ c ≠ '(' ∧ c ≠ '\\' := by
  simp [isFlatChar]

theorem inSelector_flat (h : Flat s) (hc : isFlatChar c = true) : Flat (s.inSelector o k c).1 := by
  obtain ⟨hdouble, hsingle, -, hescape⟩ := isFlatChar_iff.mp hc
  apply inSelector_cases (P := fun t _ => Flat t)
  case space =>
    intro _ _
    obtain ⟨selector, heq⟩ := spaceSelector_eq s
    rw [heq]
    exact h.congr rfl rfl rfl rfl
  case comment => exact fun _ _ => h.readComment k
  case brace =>
    intro _ _
    obtain ⟨id, document, heq⟩ := openSelector_eq o s
    rw [heq]
    exact h.enterFrom .property .selector (by decide) (by decide) rfl rfl rfl rfl
  case atSign => exact fun _ _ _ => h.enter .atRule (by decide) rfl rfl rfl rfl
  case quote => exact fun _ hquote => absurd hquote (by simp [hdouble, hsingle])
  case close => exact fun _ _ => (h.closeBlock.popMode (by decide)).congr rfl rfl rfl rfl
  case escape => exact fun _ heq => absurd heq hescape
  all_goals intros; exact h.congr rfl rfl rfl rfl

theorem inProperty_flat (h : Flat s) (hc : isFlatChar c = true) : Flat (s.inProperty o k c).1 := by
  obtain ⟨-, -, -, hescape⟩ := isFlatChar_iff.mp hc
  apply inProperty_cases (P := fun t _ => Flat t)
  case value => exact fun _ _ _ => h.enterFrom .value .property (by decide) (by decide) rfl rfl rfl rfl
  case comment => exact fun _ _ => h.readComment k
  case close => exact fun _ _ => (h.closeBlock.popMode (by decide)).congr rfl rfl rfl rfl
  case atSign => exact fun _ _ _ => h.enter .atRule (by decide) rfl rfl rfl rfl
  case escape => exact fun _ heq => absurd heq hescape
  all_goals intros; exact h.congr rfl rfl rfl rfl

theorem inWords_flat (h : Flat s) (hrest : k.rest = c :: tail) (htoken : k.atToken = false)
    (hescaped : k.escaped = false) : Flat (s.inWords k c).1 := by
  refine inWords_cases (P := fun t _ => Flat t) ?_ ?_
  · exact fun _ => h.flushPart
  · exact fun hspace => ⟨h.modes, h.part.append (Flat.readRun hrest htoken hescaped hspace), h.parts⟩

/-- A token that is no delimiter becomes part of a word. -/
theorem Flat.push (h : Flat s) (hsemicolon : c ≠ ';') (hbrace : c ≠ '}') : Flat { s with part := s.part.push c } := by
  refine ⟨h.modes, ?_, h.parts⟩
  rw [push_eq_append]
  exact h.part.append (.singleton hsemicolon hbrace)

/-- A mark becomes a part of its own. -/
theorem Flat.mark (h : Flat s) {mark : String} (hmark : Undelimited mark) :
    Flat { s.flushPart with parts := s.flushPart.parts ++ [mark] } := by
  refine ⟨h.modes, .empty, fun part hpart => ?_⟩
  rcases mem_append.mp hpart with hpart | hpart
  · exact h.flushPart.parts part hpart
  · rwa [mem_singleton.mp hpart]

/-- Leaving a value together with its block. -/
theorem Flat.leave (h : Flat s) :
    Flat { State.popMode { s with returns := s.returns.drop 1 } .selector with selector := "" } := by
  have hdropped : Flat { s with returns := s.returns.drop 1 } := by
    refine ⟨forall_mem_cons.mpr ⟨(forall_mem_cons.mp h.modes).1, fun m hm => ?_⟩, h.part, h.parts⟩
    exact h.modes m (mem_cons_of_mem _ (mem_of_mem_drop hm))
  exact (hdropped.popMode (by decide)).congr rfl rfl rfl rfl

theorem inValue_flat (h : Flat s) (hc : isFlatChar c = true) (hrest : k.rest = c :: tail)
    (hescaped : k.escaped = false) : Flat (s.inValue o k c).1 := by
  obtain ⟨hdouble, hsingle, hparen, hescape⟩ := isFlatChar_iff.mp hc
  have hended : Flat ((s.popMode .property).endDeclaration o) := (h.popMode (by decide)).endDeclaration
  have hblock : Flat ((s.endDeclaration o).closeBlock o) := h.endDeclaration.closeBlock
  apply inValue_cases (P := fun t _ => Flat t)
  case last => exact fun _ => hended
  case inferred =>
    intro _ _
    have hwarned : Flat (s.warn "Added semicolon to the end of declaration") := h.congr rfl rfl rfl rfl
    exact (hwarned.popMode (by decide)).endDeclaration
  case words => exact fun htoken _ => inWords_flat h hrest htoken hescaped
  case comment => exact fun _ _ => h.readComment k
  case quote => exact fun _ hquote => absurd hquote (by simp [hdouble, hsingle])
  case bracket => exact fun _ heq => absurd heq hparen
  case mark => exact fun _ hmark => h.mark (by rcases hmark with rfl | rfl <;> exact .singleton (by decide) (by decide))
  case escape => exact fun _ heq => absurd heq hescape
  case semicolon => exact fun _ _ => hended
  case close => exact fun _ _ => hblock.leave
  case other => exact fun _ _ _ hsemicolon hbrace => h.push hsemicolon hbrace

theorem inAtRule_flat (h : Flat s) (hc : isFlatChar c = true) (hrest : k.rest = c :: tail)
    (hescaped : k.escaped = false) (hbrace : c ≠ '}') : Flat (s.inAtRule o k c).1 := by
  obtain ⟨hdouble, hsingle, hparen, hescape⟩ := isFlatChar_iff.mp hc
  apply inAtRule_cases (P := fun t _ => Flat t)
  case words => exact fun htoken => inWords_flat h hrest htoken hescaped
  case comment => exact fun _ _ => h.readComment k
  case quote => exact fun _ hquote => absurd hquote (by simp [hdouble, hsingle])
  case bracket => exact fun _ heq => absurd heq hparen
  case semicolon => exact fun _ _ => h.endAtRule
  case comma =>
    have hcomma : Undelimited (singleton ',') := .singleton (by decide) (by decide)
    exact fun _ _ => h.mark hcomma
  case brace => exact fun _ _ => h.openAtBlock _
  case escape => exact fun _ heq => absurd heq hescape
  case other => exact fun _ hsemicolon => h.push hsemicolon hbrace

theorem step_flat (h : Flat s) (hc : isFlatChar c = true) (hrest : k.rest = c :: tail) (hescaped : k.escaped = false)
    (hbrace : s.mode = .atRule → c ≠ '}') : Flat (s.step o k c).1 := by
  have hmode := (forall_mem_cons.mp h.modes).1
  unfold step
  split
  · exact inSelector_flat h hc
  · exact inProperty_flat h hc
  · exact inValue_flat h hc hrest hescaped
  · next hstring => exact absurd hstring hmode.1
  · next hbracket => exact absurd hbracket hmode.2
  · next hatRule => exact inAtRule_flat h hc hrest hescaped (hbrace hatRule)

end Modes

/-! ## Runs -/

theorem oddBackslashes_of_notMem {before : List Char} (h : '\\' ∉ before) : Text.oddBackslashes before = false := by
  cases before with
  | nil => rfl
  | cons c before =>
    have hc : (c == '\\') = false := beq_eq_false_iff_ne.mpr fun heq => h (heq ▸ mem_cons_self)
    rw [Text.oddBackslashes_cons, hc, Bool.false_and]

theorem next_flat {r : Reader} (htext : ∀ c ∈ r.cursor.text, isFlatChar c = true) (h : Flat r.state)
    (hrest : r.cursor.rest ≠ []) : Flat (r.next o).state := by
  have hescaped : r.cursor.escaped = false := by
    refine oddBackslashes_of_notMem fun hmem => ?_
    exact absurd (htext '\\' (mem_append_left _ (mem_reverse.mpr hmem))) (by decide)
  refine next_cases (P := fun r' => Flat r'.state) hrest ?_ ?_
  · exact fun _ => h.endAtRule
  · intro c tail hcons hshared
    obtain ⟨line, hline⟩ := r.state.countLine_eq c
    have hcounted : Flat (r.state.countLine c) := by
      rw [hline]
      exact h.congr rfl rfl rfl rfl
    have hc : c ∈ r.cursor.text := by
      rw [Text.Cursor.text, hcons]
      exact mem_append_right _ mem_cons_self
    refine step_flat hcounted (htext c hc) hcons hescaped fun hmode => ?_
    rw [hline] at hmode
    rintro rfl
    have hbrace := (atSharedBrace_iff r).mpr ⟨hmode, by rw [hcons]; rfl, hescaped⟩
    rw [hbrace] at hshared
    cases hshared

/-- **The reader stays out of strings and functions** in a stylesheet in which none starts, and no word of a value gets a
delimiter. -/
theorem after_flat {css : String} (h : ∀ c ∈ sourceText css, isFlatChar c = true) (n : Nat) :
    (after o css n).cursor.text = sourceText css ∧ Flat (after o css n).state := by
  refine after_induction (P := fun r => r.cursor.text = sourceText css ∧ Flat r.state) ?_ ?_ n
  · exact ⟨rfl, forall_mem_singleton.mpr ⟨nofun, nofun⟩, .empty, nofun⟩
  · rintro r hrest ⟨htext, hflat⟩
    refine ⟨?_, next_flat (fun c hc => h c (htext ▸ hc)) hflat hrest⟩
    rw [← htext]
    refine next_cases (P := fun r' => r'.cursor.text = r.cursor.text) hrest (fun _ => rfl) fun c tail _ _ => ?_
    exact Text.Cursor.text_advance _ _

/-- **No value has a delimiter** in a stylesheet without quotes, opening parentheses and backslashes. -/
theorem read_undelimited {css : String} (h : ∀ c ∈ sourceText css, isFlatChar c = true) :
    (Document.read o css).1.Declares (fun ds => ∀ x ∈ ds.entries, Undelimited x.2.text) [] := by
  have hempty : ∀ x ∈ Declarations.empty.entries, Undelimited x.2.text := nofun
  have hinsert (ds : Declarations) (property : String) (value : Value) (hvalue : Undelimited value.text)
      (hds : ∀ x ∈ ds.entries, Undelimited x.2.text) :
      ∀ x ∈ (ds.insert property value).entries, Undelimited x.2.text := by
    intro x hx
    rcases Declarations.mem_or_eq_of_mem_insert hx with hx | rfl
    · exact hds x hx
    · exact hvalue
  have hafter (n : Nat) : (after o css n).state.document.Declares (fun ds => ∀ x ∈ ds.entries, Undelimited x.2.text) [] := by
    induction n with
    | zero => exact Document.declares_empty hempty []
    | succ n ih =>
      have hflat := (after_flat (o := o) h n).2
      rw [after_succ]
      have hedits : Edits o (fun value => Undelimited value.text) (after o css n).state ((after o css n).next o).state :=
        next_edits fun _ d hd => undelimited_declaration? hflat.part hflat.parts hd
      exact hedits.induction ih fun s t hedit hs => hedit.declares hempty hinsert hs
  obtain ⟨n, hrun⟩ := run_start_eq_after o css
  have hflat := (after_flat (o := o) h n).2
  have hmode := (forall_mem_cons.mp hflat.modes).1
  have hkept : ((after o css n).state.finishString o).finishBracket = (after o css n).state := by
    rw [finishString, if_neg hmode.1, finishBracket, if_neg hmode.2]
  have hedits : Edits o (fun value => Undelimited value.text) (after o css n).state ((after o css n).state.finish o) := by
    refine finish_edits fun _ d hd => ?_
    rw [hkept] at hd
    exact undelimited_declaration? hflat.part hflat.parts hd
  rw [Document.read, hrun]
  exact hedits.induction (hafter n) fun s t hedit hs => hedit.declares hempty hinsert hs

end Reader

end Stylesheet
