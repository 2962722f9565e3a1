import Stylesheet.Proofs.Shorthand.Compress
import Stylesheet.Proofs.Shorthand.Passes

/-!
# Effective values

The effective value of a longhand is the one that wins when the shorthand of its group is written out as longhands, in
its place. Dissolving, gathering and compressing a group each keep the effective values of its longhands. For gathering,
the longhands have to be words that close what they open: an unclosed word runs together with the next one.

Everything that belongs to no group is left alone (`effective_tidyBlock`).
-/

namespace Stylesheet.Shorthand

open Declarations Text List Group

/-! ## Writing out a shorthand -/

/-- The words for the longhands of a group: the four sides of a box, or a pair. -/
def Group.spread? (g : Group) (ws : List String) : Option (List String) :=
  if g.longhands.length = 2 then pairWords ws else sideWords ws

/-- The longhands with the values that the shorthand gives them, if the number of words fits. -/
def Group.components? (g : Group) (value : Value) : Option (List Declaration) :=
  (g.spread? (words value.text)).map fun ws => (g.longhands.zip ws).map fun x => (x.1, { value with text := x.2 })

/-- The entries with the longhands in the place of the shorthand. -/
def Group.writtenOut (g : Group) (entries : List Declaration) : List Declaration :=
  entries.flatMap fun x => if x.1 = g.shorthand then (g.components? x.2).getD [] else [x]

/-- The value of a longhand that wins when the shorthand is written out. -/
def Group.effective (g : Group) (d : Declarations) (longhand : String) : Option Value :=
  winner (given (g.writtenOut d.entries) longhand)

variable {g : Group} {d e : Declarations} {longhand : String} {front back : List Declaration} {value : Value}

theorem Group.writtenOut_append (g : Group) (l m : List Declaration) :
    g.writtenOut (l ++ m) = g.writtenOut l ++ g.writtenOut m :=
  flatMap_append

theorem Group.writtenOut_cons (g : Group) (x : Declaration) (l : List Declaration) :
    g.writtenOut (x :: l) = g.writtenOut [x] ++ g.writtenOut l :=
  g.writtenOut_append [x] l

theorem Group.writtenOut_of_notMem {l : List Declaration} (h : g.shorthand ∉ l.map Prod.fst) : g.writtenOut l = l := by
  induction l with
  | nil => rfl
  | cons x l ih =>
    rw [map_cons, mem_cons, not_or] at h
    have hx : g.writtenOut [x] = [x] := by simp [writtenOut, Ne.symm h.1]
    rw [g.writtenOut_cons, hx, ih h.2, singleton_append]

theorem Group.effective_of_notMem (h : g.shorthand ∉ d.entries.map Prod.fst) (longhand : String) :
    g.effective d longhand = winner (given d.entries longhand) := by
  rw [effective, writtenOut_of_notMem h]

theorem Group.effective_of_entries (h : d.entries = front ++ (g.shorthand, value) :: back) (longhand : String) :
    g.effective d longhand
      = winner (given front longhand ++ given ((g.components? value).getD []) longhand ++ given back longhand) := by
  obtain ⟨hfront, hback⟩ := notMem_around h
  have hself : g.writtenOut [(g.shorthand, value)] = (g.components? value).getD [] := by simp [writtenOut]
  rw [effective, h, g.writtenOut_append, g.writtenOut_cons, hself,
    writtenOut_of_notMem hfront, writtenOut_of_notMem hback, given_append, given_append, append_assoc]

/-- The effective values of a group are seen in its entries. -/
theorem Group.effective_eq_of_view_eq (hview : d.view g.names.contains = e.view g.names.contains)
    (h : longhand ∈ g.longhands) : g.effective d longhand = g.effective e longhand := by
  have hfilter (l : List Declaration) :
      given (g.writtenOut (l.filter (g.names.contains ·.1))) longhand = given (g.writtenOut l) longhand := by
    induction l with
    | nil => rfl
    | cons x l ih =>
      rw [filter_cons, g.writtenOut_cons x l, given_append]
      split
      · rw [g.writtenOut_cons, given_append, ih]
      · next hx =>
        have hx : x.1 ∉ g.names := by simpa using hx
        obtain ⟨hshorthand, hlonghand⟩ := not_or.mp (mem_cons.not.mp hx)
        have hne : x.1 ≠ longhand := fun heq => hlonghand (heq ▸ h)
        have hnone : given (g.writtenOut [x]) longhand = [] := by simp [writtenOut, hshorthand, given, hne]
        rw [hnone, nil_append, ih]
  rw [effective, ← hfilter d.entries, effective, ← hfilter e.entries]
  exact congrArg (fun l => winner (given (g.writtenOut l) longhand)) hview

/-! ## Dissolving -/

theorem sideWords_eq_some {ws sides : List String} (h : sideWords ws = some sides) :
    sides.length = 4 ∧ ∀ w ∈ sides, w ∈ ws := by
  unfold sideWords at h
  split at h <;> simp_all <;> (subst h; simp)

theorem winner_singleton (value : Value) : winner [value] = some value := by
  cases himportant : value.important <;> simp [winner, himportant]

/-- Where there is one other value at most, a value in the place of the shorthand wins or does not count. -/
theorem winner_middle {l m : List Value} (h : (l ++ m).length ≤ 1) (value : Value) :
    winner (l ++ [value] ++ m)
      = if l.all (fun w => value.important || !w.important) && m.all (fun w => value.important && !w.important)
        then some value else winner (l ++ m) := by
  rcases l with _ | ⟨w, l⟩
  · rcases m with _ | ⟨w, m⟩
    · simp [winner_singleton]
    · obtain rfl : m = [] := by simpa using h
      cases hvalue : value.important <;> cases hw : w.important <;> simp [winner, hvalue, hw]
  · obtain ⟨rfl, rfl⟩ : l = [] ∧ m = [] := by simpa using h
    cases hvalue : value.important <;> cases hw : w.important <;> simp [winner, hvalue, hw]

variable {longhands : List Declaration}

theorem dissolve?_eq_components? (hbox : g.longhands.length = 4) : g.dissolve? = g.components? := by
  funext value
  simp [dissolve?, components?, spread?, hbox]

theorem map_fst_dissolve? (hbox : g.longhands.length = 4) (h : g.dissolve? value = some longhands) :
    longhands.map Prod.fst = g.longhands := by
  obtain ⟨sides, hsides, rfl⟩ := Option.map_eq_some_iff.mp h
  have hlength := (sideWords_eq_some hsides).1
  rw [map_map]
  exact map_fst_zip (by omega)

theorem text_mem_of_dissolve? (h : g.dissolve? value = some longhands) :
    ∀ x ∈ longhands, x.2.text ∈ words value.text := by
  obtain ⟨sides, hsides, rfl⟩ := Option.map_eq_some_iff.mp h
  intro x hx
  obtain ⟨y, hy, rfl⟩ := mem_map.mp hx
  exact (sideWords_eq_some hsides).2 _ (of_mem_zip hy).2

theorem ne_empty_of_mem_words {text w : String} (h : w ∈ words text) : w ≠ "" :=
  (words_eq_singleton_iff.mp ((sideBySide_words text).word w h)).1

/-- Among longhands of different names, each has one value. -/
theorem given_of_mem (hnodup : (longhands.map Prod.fst).Nodup) (h : (longhand, value) ∈ longhands) :
    given longhands longhand = [value] := by
  have hget : (Declarations.mk longhands hnodup).get? longhand = some value := get?_eq_some_iff.mpr h
  rw [← Option.toList_some, ← hget]
  exact given_entries ⟨longhands, hnodup⟩ longhand

/-- The values of a longhand after dissolving: that of the shorthand alone if it overrules what the block has, or what
the block has. -/
theorem given_dissolveInto (h : d.entries = front ++ (g.shorthand, value) :: back)
    (hnodup : (longhands.map Prod.fst).Nodup) {w : Value} (hmem : (longhand, w) ∈ longhands) :
    given (dissolveInto d g.shorthand longhands).entries longhand
      = if overrides front back (longhand, w) then [w] else given front longhand ++ given back longhand := by
  rw [entries_dissolveInto h hnodup, given_append, given_append, given_withoutAll, given_withoutAll]
  by_cases hoverrides : overrides front back (longhand, w) = true
  · have hw : (longhand, w) ∈ overruling front back longhands := mem_filter.mpr ⟨hmem, hoverrides⟩
    have hname : longhand ∈ (overruling front back longhands).map Prod.fst := mem_map.mpr ⟨_, hw, rfl⟩
    rw [if_pos hname, if_pos hname, given_of_mem (hnodup.sublist (overruling_sublist.map _)) hw, if_pos hoverrides]
    rfl
  · have hname : longhand ∉ (overruling front back longhands).map Prod.fst := by
      intro hname
      obtain ⟨⟨_, v⟩, hv, rfl⟩ := mem_map.mp hname
      obtain ⟨hvmem, hvoverrides⟩ := mem_filter.mp hv
      have hvalue : [w] = [v] := (given_of_mem hnodup hmem).symm.trans (given_of_mem hnodup hvmem)
      rw [cons.inj hvalue |>.1] at hoverrides
      exact hoverrides hvoverrides
    rw [if_neg hname, if_neg hname, given_of_notMem hname, if_neg hoverrides, append_nil]

/-- A longhand keeps its effective value when the shorthand is dissolved. -/
theorem effective_dissolveInto (hbox : g.longhands.length = 4) (hnodup : g.names.Nodup)
    (hvalue : d.get? g.shorthand = some value) (hdissolve : g.dissolve? value = some longhands)
    (hlonghand : longhand ∈ g.longhands) :
    g.effective (dissolveInto d g.shorthand longhands) longhand = g.effective d longhand := by
  obtain ⟨hshorthand, hnodup⟩ := nodup_cons.mp hnodup
  obtain ⟨front, back, hentries⟩ := exists_entries hvalue
  have hnames := map_fst_dissolve? hbox hdissolve
  rw [← hnames] at hshorthand hnodup hlonghand
  obtain ⟨w, hmem⟩ : ∃ w, (longhand, w) ∈ longhands := by simpa using hlonghand
  have htext : w.text.isEmpty = false := by
    simpa using ne_empty_of_mem_words (text_mem_of_dissolve? hdissolve _ hmem)
  have hgone := notMem_dissolveInto hentries hnodup hshorthand
  have hone : (given front longhand ++ given back longhand).length ≤ 1 := by
    have hothers : given (d.erase g.shorthand).entries longhand = given front longhand ++ given back longhand :=
      (congrArg (given · longhand) (without_around hentries)).trans (given_append _ _ _)
    rw [← hothers, given_entries]
    cases (d.erase g.shorthand).get? longhand <;> simp
  -- both sides ask whether what the shorthand gives wins against what is given around it
  rw [effective_of_notMem hgone, given_dissolveInto hentries hnodup hmem, effective_of_entries hentries,
    ← dissolve?_eq_components? hbox, hdissolve, Option.getD_some, given_of_mem hnodup hmem, winner_middle hone]
  have hoverrides : overrides front back (longhand, w)
      = ((given front longhand).all (fun v => w.important || !v.important)
        && (given back longhand).all fun v => w.important && !v.important) := by
    simp only [overrides, htext, Bool.not_false, Bool.true_and]
  rw [hoverrides, apply_ite winner, winner_singleton]

theorem effective_dissolveBeside (hbox : g.longhands.length = 4) (hnodup : g.names.Nodup)
    (hlonghand : longhand ∈ g.longhands) : g.effective (dissolveBeside d g) longhand = g.effective d longhand := by
  unfold dissolveBeside
  split
  · split
    · next hdissolve =>
      obtain ⟨value, hvalue, hdissolve⟩ := Option.bind_eq_some_iff.mp hdissolve
      exact effective_dissolveInto hbox hnodup hvalue hdissolve hlonghand
    · rfl
  · rfl

/-! ## Closed words -/

/-- A text that is one word and closes what it opens. -/
def IsClosedWord (text : String) : Prop := words text = [text] ∧ Closed text

instance (text : String) : Decidable (IsClosedWord text) := inferInstanceAs (Decidable (_ ∧ _))

/-- The longhands of a group that the block has are closed words. -/
def Group.HasClosedWords (g : Group) (d : Declarations) : Prop :=
  ∀ longhand ∈ g.longhands, ∀ value ∈ d.get? longhand, IsClosedWord value.text

instance (g : Group) (d : Declarations) : Decidable (g.HasClosedWords d) :=
  inferInstanceAs (Decidable (∀ longhand ∈ g.longhands, ∀ value ∈ d.get? longhand, IsClosedWord value.text))

theorem Group.HasClosedWords.of_view_eq (h : g.HasClosedWords d)
    (hview : e.view g.names.contains = d.view g.names.contains) : g.HasClosedWords e := by
  intro longhand hlonghand value hvalue
  have hkeep : g.names.contains longhand = true := by simp [names, hlonghand]
  rw [get?_eq_of_view_eq hview hkeep] at hvalue
  exact h longhand hlonghand value hvalue

/-- The words of a closed shorthand are closed words. -/
theorem Group.HasClosedWords.dissolveInto (hbox : g.longhands.length = 4) (hnodup : g.names.Nodup)
    (h : g.HasClosedWords d) (hvalue : d.get? g.shorthand = some value) (hclosed : Closed value.text)
    (hdissolve : g.dissolve? value = some longhands) :
    g.HasClosedWords (dissolveInto d g.shorthand longhands) := by
  obtain ⟨front, back, hentries⟩ := exists_entries hvalue
  have hnames := map_fst_dissolve? hbox hdissolve
  have hdistinct : (longhands.map Prod.fst).Nodup := hnames ▸ (nodup_cons.mp hnodup).2
  intro longhand hlonghand v hv
  rcases mem_dissolveInto hentries hdistinct (get?_eq_some_iff.mp hv) with hothers | hmem
  · refine h longhand hlonghand v (get?_eq_some_iff.mpr ?_)
    rw [← without_around hentries] at hothers
    exact mem_of_mem_filter hothers
  · have hword := text_mem_of_dissolve? hdissolve _ hmem
    exact ⟨(sideBySide_words _).word _ hword, closed_of_mem_words hclosed hword⟩

/-- The texts of a block that a group can be read from: the longhands are closed words, and so are the words of a box
shorthand that is dissolved. -/
structure Group.Readable (g : Group) (d : Declarations) : Prop where
  longhands : g.HasClosedWords d
  shorthand : g ∈ boxGroups → g.longhands.any d.contains → ∀ value ∈ d.get? g.shorthand, Closed value.text

theorem Group.Readable.of_view_eq (h : g.Readable d)
    (hview : e.view g.names.contains = d.view g.names.contains) : g.Readable e := by
  refine ⟨h.longhands.of_view_eq hview, fun hbox hany value hvalue => h.shorthand hbox ?_ value ?_⟩
  · obtain ⟨longhand, hlonghand, hcontains⟩ := any_eq_true.mp hany
    refine any_eq_true.mpr ⟨longhand, hlonghand, ?_⟩
    rwa [← contains_eq_of_view_eq hview (by simp [names, hlonghand])]
  · rwa [← get?_eq_of_view_eq hview (by simp [names])]

theorem Group.Readable.dissolveBeside (hbox : g ∈ boxGroups) (h : g.Readable d) :
    g.HasClosedWords (dissolveBeside d g) := by
  have hlength := length_of_mem_boxGroups g hbox
  have hnodup := nodup_names g (mem_append_left _ hbox)
  unfold Shorthand.dissolveBeside
  split
  · next hany =>
    split
    · next hdissolve =>
      obtain ⟨value, hvalue, hdissolve⟩ := Option.bind_eq_some_iff.mp hdissolve
      exact h.longhands.dissolveInto hlength hnodup hvalue (h.shorthand hbox hany value hvalue) hdissolve
    · exact h.longhands
  · exact h.longhands

/-! ## Gathering -/

theorem allValues?_eq_some {names : List String} {values : List Value} (h : allValues? d names = some values) :
    values.length = names.length ∧ ∀ x ∈ names.zip values, d.get? x.1 = some x.2 := by
  unfold allValues? at h
  induction names generalizing values with
  | nil => simp_all
  | cons name names ih =>
    rw [mapM_cons] at h
    obtain ⟨value, hvalue, hrest⟩ := Option.bind_eq_some_iff.mp h
    obtain ⟨rest, hnames, hvalues⟩ := Option.bind_eq_some_iff.mp hrest
    obtain rfl : value :: rest = values := Option.some.inj hvalues
    obtain ⟨hlength, hzip⟩ := ih hnames
    exact ⟨by simp [hlength], forall_mem_cons.mpr ⟨hvalue, hzip⟩⟩

theorem exists_mem_zip {names : List String} {values : List Value} (h : allValues? d names = some values) {name : String}
    (hname : name ∈ names) : ∃ v, (name, v) ∈ names.zip values ∧ d.get? name = some v := by
  obtain ⟨hlength, hzip⟩ := allValues?_eq_some h
  have hnames : (names.zip values).map Prod.fst = names := map_fst_zip (by omega)
  rw [← hnames] at hname
  obtain ⟨x, hx, rfl⟩ := mem_map.mp hname
  exact ⟨x.2, hx, hzip x hx⟩

theorem agreedImportance?_eq_some {values : List Value} {important : Bool}
    (h : agreedImportance? values = some important) : ∀ v ∈ values, v.important = important := by
  cases values with
  | nil => simp
  | cons first rest =>
    rw [agreedImportance?] at h
    split at h
    · next hall =>
      obtain rfl := Option.some.inj h
      simpa using hall
    · exact absurd h nofun

theorem gathered?_eq_some (h : g.gathered? d = some value) :
    d.contains g.shorthand = false ∧ ∃ values, allValues? d g.longhands = some values ∧
      (∀ v ∈ values, v.important = value.important) ∧ value.text = compressed (values.map (·.text)) := by
  unfold gathered? at h
  split at h
  · exact absurd h nofun
  · next hshorthand =>
    split at h
    · exact absurd h nofun
    · next values hvalues =>
      split at h
      · exact absurd h nofun
      · next important himportant =>
        dsimp only at h
        split at h
        · exact absurd h nofun
        · obtain rfl := Option.some.inj h
          exact ⟨by simpa using hshorthand, values, hvalues, agreedImportance?_eq_some himportant, rfl⟩

section

variable (hlength : g.longhands.length = 4 ∨ g.longhands.length = 2)
include hlength

theorem Group.spread?_compressWords {ws : List String} (hws : ws.length = g.longhands.length) :
    g.spread? (compressWords ws) = some ws := by
  unfold spread?
  rcases hlength with hfour | htwo
  · rw [if_neg (by omega), sideWords_compressWords]
    match ws, hws.trans hfour with
    | [_, _, _, _], _ => rfl
  · rw [if_pos htwo]
    match ws, hws.trans htwo with
    | [a, b], _ => exact pairWords_compressWords a b

/-- The text of the gathered longhands gives each of them its own text back. -/
theorem components?_gathered {values : List Value}
    (hvalues : values.length = g.longhands.length)
    (hwords : ∀ v ∈ values, IsClosedWord v.text) (himportant : ∀ v ∈ values, v.important = value.important)
    (htext : value.text = compressed (values.map (·.text))) :
    g.components? value = some (g.longhands.zip values) := by
  have hside : SideBySide (values.map (·.text)) := sideBySide_of_closed (forall_mem_map.mpr hwords)
  have hspread : g.spread? (compressWords (values.map (·.text))) = some (values.map (·.text)) :=
    spread?_compressWords hlength (by rw [length_map, hvalues])
  rw [components?, htext, words_compressed hside, hspread, Option.map_some, zip_map_right, map_map]
  refine congrArg some ((map_congr_left fun x hx => ?_).trans (map_id _))
  have hx : x.2.important = value.important := himportant x.2 (of_mem_zip hx).2
  simp [← hx]

/-- Gathering keeps the effective values of longhands that are closed words. -/
theorem effective_gatherIn (hnodup : g.names.Nodup)
    (hwords : g.HasClosedWords d) (hlonghand : longhand ∈ g.longhands) :
    g.effective (gatherIn d g) longhand = g.effective d longhand := by
  unfold gatherIn
  split
  · next value hgathered =>
    obtain ⟨hshorthand, values, hvalues, himportant, htext⟩ := gathered?_eq_some hgathered
    obtain ⟨hcount, hzip⟩ := allValues?_eq_some hvalues
    have hnames : (g.longhands.zip values).map Prod.fst = g.longhands := map_fst_zip (by omega)
    have hclosed : ∀ v ∈ values, IsClosedWord v.text := by
      have hsecond : (g.longhands.zip values).map Prod.snd = values := map_snd_zip (by omega)
      rw [← hsecond]
      exact forall_mem_map.mpr fun x hx => hwords x.1 (of_mem_zip hx).1 x.2 (hzip x hx)
    have hdistinct : ((g.longhands.zip values).map Prod.fst).Nodup := by
      rw [hnames]
      exact (nodup_cons.mp hnodup).2
    have habsent : g.shorthand ∉ d.entries.map Prod.fst := by
      rw [← contains_iff_mem, hshorthand]
      exact Bool.false_ne_true
    obtain ⟨v, hmem, hget⟩ := exists_mem_zip hvalues hlonghand
    obtain ⟨front, first, w, back, hentries, hfirst, hfront⟩ :=
      exists_first hlonghand (contains_iff_mem.mp (contains_iff_get?.mpr ⟨v, hget⟩))
    -- nothing of the group stands in front of its first longhand, so the shorthand alone decides there
    have hnone : given front longhand = [] :=
      given_eq_nil_iff.mpr fun w hw => hfront (longhand, w) hw hlonghand
    rw [effective_of_entries (entries_gather hentries hfirst hfront habsent),
      components?_gathered hlength hcount hclosed himportant htext, Option.getD_some, given_of_mem hdistinct hmem, hnone,
      given_withoutAll, if_pos hlonghand, effective_of_notMem habsent, given_entries, hget]
    rfl
  · rfl

/-! ## Compressing -/

end

theorem effective_compressIn (hbox : g.longhands.length = 4) :
    g.effective (compressIn d g) longhand = g.effective d longhand := by
  unfold compressIn
  split
  · next value hvalue =>
    obtain ⟨front, back, hentries⟩ := exists_entries hvalue
    have hcomponents : g.components? { value with text := compress value.text } = g.components? value := by
      simp [components?, spread?, hbox, words_compress, sideWords_compressWords]
    rw [effective_of_entries (entries_set hentries), effective_of_entries hentries, hcomponents]
  · rfl

/-! ## The three passes -/

section

variable (hg : g ∈ boxGroups ++ pairGroups)
include hg

/-- In the entries of one group, all other groups are left out. -/
theorem names_apart {groups : List Group} (hgroups : groups ⊆ boxGroups ++ pairGroups) :
    ∀ other ∈ groups, other ≠ g → ∀ name ∈ other.names, g.names.contains name = false := by
  intro other hother hne name hname
  simpa using names_disjoint g hg other (hgroups hother) hne name hname

theorem effective_dissolved (h : g.Readable d) :
    g.HasClosedWords (boxGroups.foldl dissolveBeside d) ∧
      ∀ longhand ∈ g.longhands, g.effective (boxGroups.foldl dissolveBeside d) longhand = g.effective d longhand := by
  have hapart := names_apart hg (subset_append_left boxGroups pairGroups)
  by_cases hbox : g ∈ boxGroups
  · obtain ⟨e, he, hview⟩ := isLocal_dissolveBeside.exists_step hbox nodup_boxGroups hapart d
    refine ⟨((h.of_view_eq he).dissolveBeside hbox).of_view_eq hview, fun longhand hlonghand => ?_⟩
    rw [effective_eq_of_view_eq hview hlonghand, effective_dissolveBeside (length_of_mem_boxGroups g hbox) (nodup_names
      g hg) hlonghand, effective_eq_of_view_eq he hlonghand]
  · have hview := isLocal_dissolveBeside.view_foldl
      (fun other hother => hapart other hother fun heq => hbox (heq ▸ hother)) d
    exact ⟨h.longhands.of_view_eq hview, fun longhand hlonghand => effective_eq_of_view_eq hview hlonghand⟩

theorem effective_gathered (h : g.HasClosedWords d)
    (hlonghand : longhand ∈ g.longhands) :
    g.effective ((boxGroups ++ pairGroups).foldl gatherIn d) longhand = g.effective d longhand := by
  have hlength : g.longhands.length = 4 ∨ g.longhands.length = 2 :=
    (mem_append.mp hg).imp (length_of_mem_boxGroups g) (length_of_mem_pairGroups g)
  obtain ⟨e, he, hview⟩ := isLocal_gatherIn.exists_step hg nodup_groups (names_apart hg (List.Subset.refl _)) d
  rw [effective_eq_of_view_eq hview hlonghand, effective_gatherIn hlength (nodup_names g hg) (h.of_view_eq he)
    hlonghand, effective_eq_of_view_eq he hlonghand]

theorem effective_compressed (hlonghand : longhand ∈ g.longhands) :
    g.effective (boxGroups.foldl compressIn d) longhand = g.effective d longhand := by
  have hapart := names_apart hg (subset_append_left boxGroups pairGroups)
  by_cases hbox : g ∈ boxGroups
  · obtain ⟨e, he, hview⟩ := isLocal_compressIn.exists_step hbox nodup_boxGroups hapart d
    rw [effective_eq_of_view_eq hview hlonghand, effective_compressIn (length_of_mem_boxGroups g hbox),
      effective_eq_of_view_eq he hlonghand]
  · exact effective_eq_of_view_eq (isLocal_compressIn.view_foldl
      (fun other hother => hapart other hother fun heq => hbox (heq ▸ hother)) d) hlonghand

end

theorem corners_notMem_names : ∀ g ∈ boxGroups ++ pairGroups, g.names.contains "border-radius" = false := by decide

/-- A property that no pass changes: it belongs to no group and is not the one for the corners. -/
def isOutside (property : String) : Bool :=
  property != "border-radius" && (boxGroups ++ pairGroups).all fun g => !g.names.contains property

/-- **The passes over a block** keep the effective value of every longhand of a group whose words are closed, and leave
every property outside of the groups alone, in its order among the others. -/
theorem effective_tidyBlock (d : Declarations) :
    (∀ g ∈ boxGroups ++ pairGroups, g.Readable d → ∀ longhand ∈ g.longhands,
      g.effective (tidyBlock .common d).1 longhand = g.effective d longhand) ∧
    (tidyBlock .common d).1.view isOutside = d.view isOutside := by
  rw [tidyBlock_common, passes]
  constructor
  · intro g hg hreadable longhand hlonghand
    obtain ⟨hwords, hdissolved⟩ := effective_dissolved hg hreadable
    rw [Group.effective_eq_of_view_eq (view_compressCorners (corners_notMem_names g hg) _) hlonghand,
      effective_compressed hg hlonghand, effective_gathered hg hwords hlonghand, hdissolved longhand hlonghand]
  · have hgroups : ∀ g ∈ boxGroups ++ pairGroups, ∀ name ∈ g.names, isOutside name = false := by decide
    have hboxes : ∀ g ∈ boxGroups, ∀ name ∈ g.names, isOutside name = false :=
      fun g hg => hgroups g (List.mem_append_left _ hg)
    rw [view_compressCorners rfl, isLocal_compressIn.view_foldl hboxes, isLocal_gatherIn.view_foldl hgroups,
      isLocal_dissolveBeside.view_foldl hboxes]

/-- The group of the paddings. -/
def paddingGroup : Group := ⟨"padding", ["padding-top", "padding-right", "padding-bottom", "padding-left"]⟩

/-- A shorthand for the paddings, with the one on the left set anew behind it. -/
def paddings : Declarations :=
  .ofList [("padding", ⟨"1px 2px", false⟩), ("color", ⟨"red", false⟩), ("padding-left", ⟨"4px", false⟩)]

theorem effective_tidyBlock_paddings :
    paddingGroup ∈ boxGroups ++ pairGroups ∧ paddingGroup.Readable paddings ∧
      paddingGroup.effective (tidyBlock .common paddings).1 "padding-left" = some ⟨"4px", false⟩ := by
  have hgroup : paddingGroup ∈ boxGroups ++ pairGroups := by decide
  have hreadable : paddingGroup.Readable paddings := ⟨by decide +kernel, by decide +kernel⟩
  refine ⟨hgroup, hreadable, ?_⟩
  rw [(effective_tidyBlock paddings).1 paddingGroup hgroup hreadable "padding-left" (by decide)]
  decide +kernel

/-- Margins of which two do not close their parenthesis. -/
def unclosedMargins : Declarations :=
  .ofList [("margin-top", ⟨"1px", false⟩), ("margin-right", ⟨"(2px", false⟩), ("margin-bottom", ⟨"5px", false⟩),
    ("margin-left", ⟨"(2px", false⟩)]

/-- It is not enough that the longhands are words: an unclosed one runs together with the next. -/
theorem effective_tidyBlock_unclosed :
    (∀ g ∈ boxGroups ++ pairGroups, ∀ longhand ∈ g.longhands, ∀ value ∈ unclosedMargins.get? longhand,
      words value.text = [value.text]) ∧
    ∃ g ∈ boxGroups ++ pairGroups, ∃ longhand ∈ g.longhands,
      g.effective (tidyBlock .common unclosedMargins).1 longhand ≠ g.effective unclosedMargins longhand := by
  decide +kernel

end Stylesheet.Shorthand
