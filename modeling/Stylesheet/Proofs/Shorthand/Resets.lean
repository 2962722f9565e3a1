import Stylesheet.Proofs.Shorthand.Effective

/-!
# Longhands behind a property that resets them

A property such as `border` resets longhands that belong to other shorthands: what stands in front of it no longer
counts. Dissolving a shorthand keeps its longhands on their side of such a property. Gathering does not: the shorthand
takes the place of the first longhand, and goes in front of the property unless all longhands stand behind it
(`setBehind_tidyBlock`).
-/

namespace Stylesheet.Shorthand

open Declarations List Group

/-! ## The order of two properties -/

/-- The block has both properties, the first one in front of the second. -/
def Before (d : Declarations) (a b : String) : Prop := [a, b].Sublist (d.entries.map Prod.fst)

instance (d : Declarations) (a b : String) : Decidable (Before d a b) := inferInstanceAs (Decidable (List.Sublist _ _))

variable {d e : Declarations} {a b : String} {front back : List Declaration} {value : Value}

theorem pair_sublist_append {l m : List String} :
    [a, b].Sublist (l ++ m) ↔ [a, b].Sublist l ∨ a ∈ l ∧ b ∈ m ∨ [a, b].Sublist m := by
  induction l with
  | nil => simp
  | cons x l ih =>
    rw [cons_append, cons_sublist_cons', ih, cons_sublist_cons', singleton_sublist,
      singleton_sublist, mem_append, mem_cons]
    grind

theorem Before.mem_right (h : Before d a b) : b ∈ d.entries.map Prod.fst :=
  h.subset (by simp)

/-- What stands in front of a property. -/
theorem before_iff_of_entries (h : d.entries = front ++ (b, value) :: back) :
    Before d a b ↔ a ∈ front.map Prod.fst := by
  obtain ⟨hfront, hback⟩ := notMem_around h
  have hno {l : List String} (hl : b ∉ l) : ¬[a, b].Sublist l := fun hsub => hl (hsub.subset (by simp))
  rw [Before, h, map_append, map_cons, pair_sublist_append, cons_sublist_cons', singleton_sublist]
  simp [hno hfront, hno hback, hback]

/-- A property in front of one that is not in the second part is in the first part. -/
theorem mem_front_of_before {front back : List Declaration} (hentries : d.entries = front ++ back)
    (hback : b ∉ back.map Prod.fst) (h : Before d a b) : a ∈ front.map Prod.fst := by
  rw [Before, hentries, map_append, pair_sublist_append] at h
  rcases h with hfront | hboth | hrest
  · exact hfront.subset mem_cons_self
  · exact hboth.1
  · exact absurd (hrest.subset (mem_cons_of_mem _ mem_cons_self)) hback

theorem before_iff_of_view_eq {keep : String → Bool} (hview : d.view keep = e.view keep) (ha : keep a = true)
    (hb : keep b = true) : Before d a b ↔ Before e a b := by
  have hkept (d : Declarations) : Before d a b ↔ [a, b].Sublist ((d.view keep).map Prod.fst) := by
    have hnames : (d.view keep).map Prod.fst = (d.entries.map Prod.fst).filter keep := by
      rw [view, filter_map]
      rfl
    rw [hnames]
    constructor
    · intro h
      have hpair : [a, b].filter keep = [a, b] := by simp [ha, hb]
      exact hpair ▸ h.filter keep
    · exact fun h => h.trans filter_sublist
  rw [hkept, hkept, hview]

/-- An entry that sets a longhand, its own or that of the shorthand, stands behind a property. -/
def Group.SetBehind (g : Group) (d : Declarations) (reset longhand : String) : Prop :=
  Before d reset longhand ∨ Before d reset g.shorthand

instance (g : Group) (d : Declarations) (reset longhand : String) : Decidable (g.SetBehind d reset longhand) :=
  inferInstanceAs (Decidable (_ ∨ _))

variable {g : Group} {reset longhand : String} {longhands : List Declaration}

/-! ## Dissolving -/

/-- No entry of the group is important. -/
def Group.Unimportant (g : Group) (d : Declarations) : Prop := ∀ name ∈ g.names, ∀ v ∈ d.get? name, v.important = false

theorem important_of_dissolve? (h : g.dissolve? value = some longhands) :
    ∀ x ∈ longhands, x.2.important = value.important := by
  obtain ⟨sides, -, rfl⟩ := Option.map_eq_some_iff.mp h
  exact forall_mem_map.mpr fun _ _ => rfl

/-- Where nothing is important, a dissolved longhand overrules what stands in front of it, and nothing else. -/
theorem mem_overruling (hunimportant : g.Unimportant d) (hentries : d.entries = front ++ (g.shorthand, value) :: back)
    (hdissolve : g.dissolve? value = some longhands) {x : Declaration} (hx : x ∈ longhands)
    (hback : x.1 ∉ back.map Prod.fst) : x ∈ overruling front back longhands := by
  have htext : x.2.text.isEmpty = false := by
    simpa using ne_empty_of_mem_words (text_mem_of_dissolve? hdissolve x hx)
  have hfront : (given front x.1).all (fun w => x.2.important || !w.important) = true := by
    rw [all_eq_true]
    intro w hw
    have hget : d.get? x.1 = some w := by
      rw [get?_eq_some_iff, hentries]
      exact mem_append_left _ (mem_given.mp hw)
    have hname : x.1 ∈ g.names := mem_cons_of_mem _ (names_of_dissolve? hdissolve x hx)
    simp [hunimportant x.1 hname w hget]
  refine mem_filter.mpr ⟨hx, ?_⟩
  simp [overrides, htext, hfront, given_of_notMem hback]

theorem notMem_overruling (hunimportant : g.Unimportant d) (hentries : d.entries = front ++ (g.shorthand, value) :: back)
    (hdissolve : g.dissolve? value = some longhands) {name : String} (hback : name ∈ back.map Prod.fst) :
    name ∉ (overruling front back longhands).map Prod.fst := by
  intro hname
  obtain ⟨x, hx, rfl⟩ := mem_map.mp hname
  obtain ⟨hmem, hoverrides⟩ := mem_filter.mp hx
  have hshorthand : value.important = false :=
    hunimportant g.shorthand mem_cons_self value (get?_of_entries hentries)
  have himportant : x.2.important = false := (important_of_dissolve? hdissolve x hmem).trans hshorthand
  obtain ⟨l, w, m, rfl⟩ := exists_middle hback
  have hw : w ∈ given (l ++ (x.1, w) :: m) x.1 := mem_given.mpr (by simp)
  simp only [overrides, Bool.and_eq_true, all_eq_true] at hoverrides
  have hbeats := (hoverrides.2 w hw).1
  rw [himportant] at hbeats
  exact Bool.false_ne_true hbeats

/-- Dissolved longhands stand behind a property where they did, or the shorthand did. -/
theorem before_dissolveInto (hbox : g.longhands.length = 4) (hnodup : g.names.Nodup) (hreset : reset ∉ g.names)
    (hunimportant : g.Unimportant d) (hvalue : d.get? g.shorthand = some value)
    (hdissolve : g.dissolve? value = some longhands) (hlonghand : longhand ∈ g.longhands) :
    Before (dissolveInto d g.shorthand longhands) reset longhand ↔ g.SetBehind d reset longhand := by
  obtain ⟨front, back, hentries⟩ := exists_entries hvalue
  obtain ⟨hresetShorthand, hresetLonghands⟩ := not_or.mp (mem_cons.not.mp hreset)
  have hnames := map_fst_dissolve? hbox hdissolve
  have hdistinct : (longhands.map Prod.fst).Nodup := hnames ▸ (nodup_cons.mp hnodup).2
  have houtside : reset ∉ (overruling front back longhands).map Prod.fst := fun hmem =>
    hresetLonghands (hnames ▸ (overruling_sublist.map _).subset hmem)
  have hdissolved := entries_dissolveInto hentries hdistinct
  rw [Group.SetBehind, before_iff_of_entries hentries]
  by_cases hback : longhand ∈ back.map Prod.fst
  · -- The longhand stands behind the shorthand and keeps its place.
    have hkept := notMem_overruling hunimportant hentries hdissolve hback
    obtain ⟨l, v, m, rfl⟩ := exists_middle hback
    have hbefore : d.entries = (front ++ (g.shorthand, value) :: l) ++ (longhand, v) :: m := by simp [hentries]
    rw [withoutAll_append, withoutAll_cons hkept, ← append_assoc] at hdissolved
    rw [before_iff_of_entries hdissolved, before_iff_of_entries hbefore]
    simp only [map_append, mem_append, mem_map_withoutAll, map_cons, mem_cons, houtside,
      hresetShorthand, not_false_eq_true, and_true, or_false, false_or]
    exact (or_iff_left_of_imp Or.inl).symm
  · -- The longhand takes the place of the shorthand.
    obtain ⟨w, hw⟩ : ∃ w, (longhand, w) ∈ longhands := by
      rw [← hnames] at hlonghand
      simpa using hlonghand
    have hmem := mem_overruling hunimportant hentries hdissolve hw hback
    have hfront : Before d reset longhand → reset ∈ front.map Prod.fst := by
      refine mem_front_of_before hentries fun hmem => ?_
      rcases mem_cons.mp hmem with hself | hrest
      · exact absurd (Eq.subst hself hlonghand) (nodup_cons.mp hnodup).1
      · exact absurd hrest hback
    obtain ⟨l, m, hlm⟩ := append_of_mem hmem
    have hafter : (dissolveInto d g.shorthand longhands).entries
        = (withoutAll front ((overruling front back longhands).map Prod.fst) ++ l) ++ (longhand, w) ::
          (m ++ withoutAll back ((overruling front back longhands).map Prod.fst)) := by
      rw [hdissolved]
      simp [hlm]
    have hl : reset ∉ l.map Prod.fst := fun h => houtside (by rw [hlm, map_append]; exact mem_append_left _ h)
    rw [before_iff_of_entries hafter, or_iff_right_of_imp hfront]
    simp only [map_append, mem_append, mem_map_withoutAll, houtside, hl, not_false_eq_true, and_true, or_false]

theorem not_before_of_contains (h : d.contains b = false) : ¬Before d a b := by
  intro hbefore
  rw [Declarations.contains_iff_mem.mpr hbefore.mem_right] at h
  exact absurd h (by decide)

/-- Beside one of its longhands, a shorthand is dissolved, or stays and so do the longhands. -/
theorem dissolveBeside_cases (hbox : g.longhands.length = 4) (hnodup : g.names.Nodup) (hreset : reset ∉ g.names)
    (hunimportant : g.Unimportant d) (hlonghand : longhand ∈ g.longhands) (hcontains : d.contains longhand = true) :
    dissolveBeside d g = d ∧ d.contains g.shorthand = true ∨
      (dissolveBeside d g).contains g.shorthand = false ∧
        ∀ other ∈ g.longhands, Before (dissolveBeside d g) reset other ↔ g.SetBehind d reset other := by
  have hany : g.longhands.any d.contains = true := any_eq_true.mpr ⟨longhand, hlonghand, hcontains⟩
  unfold dissolveBeside
  rw [if_pos hany]
  split
  · next longhands hdissolve =>
    obtain ⟨value, hvalue, hdissolve⟩ := Option.bind_eq_some_iff.mp hdissolve
    obtain ⟨front, back, hentries⟩ := exists_entries hvalue
    have hnames := map_fst_dissolve? hbox hdissolve
    obtain ⟨hshorthand, hdistinct⟩ := nodup_cons.mp hnodup
    rw [← hnames] at hshorthand hdistinct
    refine .inr ⟨?_, fun other => before_dissolveInto hbox hnodup hreset hunimportant hvalue hdissolve⟩
    rw [← Bool.not_eq_true, contains_iff_mem]
    exact notMem_dissolveInto hentries hdistinct hshorthand
  · cases hshorthand : d.contains g.shorthand with
    | true => exact .inl ⟨rfl, rfl⟩
    | false => exact .inr ⟨rfl, fun other _ => (or_iff_left (not_before_of_contains hshorthand)).symm⟩

/-! ## Gathering -/

/-- A gathered shorthand stands behind a property if all longhands did. -/
theorem gatherIn_cases (hnodup : g.names.Nodup) (hlonghand : longhand ∈ g.longhands) :
    gatherIn d g = d ∨
      (gatherIn d g).contains longhand = false ∧
        (Before (gatherIn d g) reset g.shorthand ↔ ∀ other ∈ g.longhands, Before d reset other) := by
  unfold gatherIn
  split
  · next value hgathered =>
    obtain ⟨hshorthand, values, hvalues, -⟩ := gathered?_eq_some hgathered
    have hall : ∀ other ∈ g.longhands, other ∈ d.entries.map Prod.fst := by
      intro other hother
      obtain ⟨v, -, hv⟩ := exists_mem_zip hvalues hother
      exact mem_map.mpr ⟨_, get?_eq_some_iff.mp hv, rfl⟩
    obtain ⟨front, first, w, back, hentries, hfirst, hfront⟩ := exists_first hlonghand (hall longhand hlonghand)
    have habsent : g.shorthand ∉ d.entries.map Prod.fst := by
      rw [← contains_iff_mem, hshorthand]
      exact Bool.false_ne_true
    -- the shorthand takes the place of the first longhand, and the other ones stand behind that
    have hgather : (gather d g.longhands g.shorthand value).entries
        = front ++ (g.shorthand, value) :: withoutAll back g.longhands :=
      entries_gather hentries hfirst hfront habsent
    have hgone (l : List Declaration) (hl : ∀ x ∈ l, x.1 ∉ g.longhands) {other : String} (hother : other ∈ g.longhands) :
        other ∉ l.map Prod.fst := by
      intro hmem
      obtain ⟨x, hx, rfl⟩ := mem_map.mp hmem
      exact hl x hx hother
    right
    constructor
    · rw [← Bool.not_eq_true, contains_iff_mem, hgather]
      refine hgone _ ?_ hlonghand
      rw [forall_mem_append, forall_mem_cons]
      exact ⟨hfront, (nodup_cons.mp hnodup).1, fun x hx => (mem_withoutAll.mp hx).2⟩
    · rw [before_iff_of_entries hgather]
      constructor
      · intro hmem other hother
        have hrest : other ∈ ((first, w) :: back).map Prod.fst := by
          have hmem := hall other hother
          rw [hentries, map_append, mem_append] at hmem
          exact hmem.resolve_left (hgone front hfront hother)
        rw [Before, hentries, map_append, pair_sublist_append]
        exact .inr (.inl ⟨hmem, hrest⟩)
      · exact fun h => (before_iff_of_entries hentries).mp (h first hfirst)
  · exact .inl rfl

/-! ## The three passes -/

theorem map_fst_compressIn (d : Declarations) (g : Group) :
    (compressIn d g).entries.map Prod.fst = d.entries.map Prod.fst := by
  unfold compressIn
  split
  · next hvalue => exact map_fst_set hvalue
  · rfl

theorem map_fst_compressCorners (d : Declarations) :
    (compressCorners d).entries.map Prod.fst = d.entries.map Prod.fst := by
  unfold compressCorners
  split
  · next hvalue => exact map_fst_set hvalue
  · rfl

theorem map_fst_compressed (groups : List Group) (d : Declarations) :
    (groups.foldl compressIn d).entries.map Prod.fst = d.entries.map Prod.fst := by
  induction groups generalizing d with
  | nil => rfl
  | cons g groups ih => rw [foldl_cons, ih, map_fst_compressIn]

theorem gatherIn_of_contains (h : d.contains g.shorthand = true) : gatherIn d g = d := by
  simp [gatherIn, gathered?, h]

/-- The entries of a group and of one more property. -/
def Group.keepsWith (g : Group) (reset name : String) : Bool := (reset :: g.names).contains name

theorem setBehind_iff_of_view_eq (hview : d.view (g.keepsWith reset) = e.view (g.keepsWith reset))
    (hlonghand : longhand ∈ g.longhands) : g.SetBehind d reset longhand ↔ g.SetBehind e reset longhand :=
  or_congr
    (before_iff_of_view_eq hview (by simp [keepsWith]) (by simp [keepsWith, names, hlonghand]))
    (before_iff_of_view_eq hview (by simp [keepsWith]) (by simp [keepsWith, names]))

/-- What dissolving and gathering do to one group, with the entries between its own left in place. -/
theorem setBehind_gatherIn (hg : g ∈ boxGroups) (hreset : reset ∉ g.names) (hunimportant : g.Unimportant d)
    (hview : e.view (g.keepsWith reset) = (dissolveBeside d g).view (g.keepsWith reset))
    (hlonghand : longhand ∈ g.longhands) (hbefore : Before d reset longhand) :
    g.SetBehind (gatherIn e g) reset longhand ↔
      (gatherIn e g).contains longhand = true ∨ ∀ other ∈ g.longhands, g.SetBehind d reset other := by
  have hlength := length_of_mem_boxGroups g hg
  have hnodup := nodup_names g (mem_append_left _ hg)
  have hkeeps (other : String) (hother : other ∈ g.longhands) : g.keepsWith reset other = true := by
    simp [keepsWith, names, hother]
  have hself : g.keepsWith reset reset = true := by simp [keepsWith]
  -- A longhand that is still there stands behind the property.
  have hstays (hbehind : Before (gatherIn e g) reset longhand) : g.SetBehind (gatherIn e g) reset longhand ↔
      (gatherIn e g).contains longhand = true ∨ ∀ other ∈ g.longhands, g.SetBehind d reset other :=
    iff_of_true (.inl hbehind) (.inl (contains_iff_mem.mpr hbehind.mem_right))
  rcases dissolveBeside_cases hlength hnodup hreset hunimportant hlonghand (contains_iff_mem.mpr hbefore.mem_right) with
    ⟨hsame, hshorthand⟩ | ⟨-, hdissolved⟩
  · rw [hsame] at hview
    have hcontains : e.contains g.shorthand = true := by
      rwa [contains_eq_of_view_eq hview (by simp [keepsWith, names])]
    apply hstays
    rw [gatherIn_of_contains hcontains]
    exact (before_iff_of_view_eq hview hself (hkeeps longhand hlonghand)).mpr hbefore
  · have hbehind : ∀ other ∈ g.longhands, Before e reset other ↔ g.SetBehind d reset other := fun other hother =>
      (before_iff_of_view_eq hview hself (hkeeps other hother)).trans (hdissolved other hother)
    rcases @gatherIn_cases e g reset longhand hnodup hlonghand with hsame | ⟨hgone, hgathered⟩
    · apply hstays
      rw [hsame]
      exact (hbehind longhand hlonghand).mpr (.inl hbefore)
    · rw [Group.SetBehind, or_iff_right (not_before_of_contains hgone), hgathered, hgone, or_iff_right (by decide)]
      exact forall₂_congr hbehind

theorem keepsWith_apart (hg : g ∈ boxGroups ++ pairGroups)
    (hreset : ∀ other ∈ boxGroups ++ pairGroups, reset ∉ other.names) :
    ∀ other ∈ boxGroups ++ pairGroups, other ≠ g → ∀ name ∈ other.names, g.keepsWith reset name = false := by
  intro other hother hne name hname
  have hnames := names_disjoint g hg other hother hne name hname
  have hname : name ≠ reset := by
    rintro rfl
    exact hreset other hother hname
  simp [keepsWith, hname, hnames]

theorem setBehind_of_group (hg : g ∈ boxGroups) (hreset : ∀ other ∈ boxGroups ++ pairGroups, reset ∉ other.names)
    (hunimportant : g.Unimportant d) (hlonghand : longhand ∈ g.longhands) (hbefore : Before d reset longhand) :
    g.SetBehind (tidyBlock .common d).1 reset longhand ↔
      (tidyBlock .common d).1.contains longhand = true ∨ ∀ other ∈ g.longhands, g.SetBehind d reset other := by
  have hmem : g ∈ boxGroups ++ pairGroups := mem_append_left _ hg
  have hapart := keepsWith_apart hmem hreset
  have hkeeps : g.keepsWith reset longhand = true := by simp [keepsWith, names, hlonghand]
  have hself : g.keepsWith reset reset = true := by simp [keepsWith]
  -- each pass comes down to its step for the group: the steps for other groups do not touch what is compared
  obtain ⟨e, he, hdissolved⟩ := isLocal_dissolveBeside.exists_step hg nodup_boxGroups
    (fun other hother => hapart other (mem_append_left _ hother)) d
  obtain ⟨f, hf, hgathered⟩ := isLocal_gatherIn.exists_step hmem nodup_groups hapart (boxGroups.foldl dissolveBeside d)
  have hunimportant : g.Unimportant e := by
    intro name hname v hv
    rw [get?_eq_of_view_eq he (by simp [keepsWith, hname])] at hv
    exact hunimportant name hname v hv
  have hstep := setBehind_gatherIn hg (hreset g hmem) hunimportant (hf.trans hdissolved) hlonghand
    ((before_iff_of_view_eq he hself hkeeps).mpr hbefore)
  -- compressing changes texts and no names
  have hnames : (tidyBlock .common d).1.entries.map Prod.fst
      = ((boxGroups ++ pairGroups).foldl gatherIn (boxGroups.foldl dissolveBeside d)).entries.map Prod.fst := by
    rw [tidyBlock_common, map_fst_compressCorners, passes, map_fst_compressed]
  have hset : g.SetBehind (tidyBlock .common d).1 reset longhand ↔ g.SetBehind (gatherIn f g) reset longhand := by
    rw [← setBehind_iff_of_view_eq hgathered hlonghand]
    simp only [Group.SetBehind, Before, hnames]
  have hcontains : (tidyBlock .common d).1.contains longhand = (gatherIn f g).contains longhand := by
    rw [← contains_eq_of_view_eq hgathered hkeeps, Bool.eq_iff_iff, contains_iff_mem, contains_iff_mem, hnames]
  rw [hset, hcontains, hstep]
  exact or_congr_right (forall₂_congr fun other hother => setBehind_iff_of_view_eq he hother)

/-! ## Borders -/

/-- The sides of a box. -/
def sides : List String := ["top", "right", "bottom", "left"]

/-- The longhand for one side of the colours, styles or widths of the border. -/
def borderLonghand (kind side : String) : String := "border-" ++ side ++ "-" ++ kind

/-- The colours, styles or widths of the border. -/
def borderGroup (kind : String) : Group := ⟨"border-" ++ kind, sides.map (borderLonghand kind)⟩

/-- The properties that reset the longhands of one side of the border. -/
def borderResets (side : String) : List String := ["border", "border-" ++ side]

/-- **Where a border longhand stands.** A longhand behind a property that resets it is set behind that property
afterwards too, unless it is gathered and some longhand of its group is not set behind the property. -/
theorem border_setBehind_iff {d : Declarations} (hunimportant : ∀ x ∈ d.entries, x.2.important = false)
    {kind side reset : String} (hkind : kind ∈ ["color", "style", "width"]) (hside : side ∈ sides)
    (hreset : reset ∈ borderResets side) (hbefore : Before d reset (borderLonghand kind side)) :
    (borderGroup kind).SetBehind (tidyBlock .common d).1 reset (borderLonghand kind side) ↔
      (tidyBlock .common d).1.contains (borderLonghand kind side) = true ∨
        ∀ other ∈ sides, (borderGroup kind).SetBehind d reset (borderLonghand kind other) := by
  have hgroup : borderGroup kind ∈ boxGroups :=
    (by decide : ∀ kind ∈ ["color", "style", "width"], borderGroup kind ∈ boxGroups) kind hkind
  have houtside : ∀ other ∈ boxGroups ++ pairGroups, reset ∉ other.names :=
    (by decide : ∀ side ∈ sides, ∀ reset ∈ borderResets side, ∀ other ∈ boxGroups ++ pairGroups, reset ∉ other.names)
      side hside reset hreset
  have hnone : (borderGroup kind).Unimportant d := fun name _ v hv => hunimportant (name, v) (get?_eq_some_iff.mp hv)
  rw [setBehind_of_group hgroup houtside hnone (List.mem_map_of_mem hside) hbefore]
  exact or_congr_right List.forall_mem_map

/-- A border whose colours are set behind it. -/
def colouredBorder : Declarations :=
  .ofList [("border", ⟨"1px solid", false⟩), ("border-top-color", ⟨"red", false⟩), ("border-right-color", ⟨"red", false⟩),
    ("border-bottom-color", ⟨"red", false⟩), ("border-left-color", ⟨"red", false⟩)]

theorem border_setBehind_colouredBorder :
    (∀ x ∈ colouredBorder.entries, x.2.important = false) ∧
      Before colouredBorder "border" (borderLonghand "color" "left") ∧
      (borderGroup "color").SetBehind (tidyBlock .common colouredBorder).1 "border" (borderLonghand "color" "left") := by
  have hunimportant : ∀ x ∈ colouredBorder.entries, x.2.important = false := by decide +kernel
  have hbefore : Before colouredBorder "border" (borderLonghand "color" "left") := by decide +kernel
  refine ⟨hunimportant, hbefore, ?_⟩
  rw [border_setBehind_iff hunimportant (by decide) (by decide) (by decide) hbefore]
  exact .inr (by decide +kernel)

/-- A border of which one colour is set in front of it. -/
def interleavedBorder : Declarations :=
  .ofList [("border-top-color", ⟨"red", false⟩), ("border", ⟨"1px solid", false⟩), ("border-right-color", ⟨"red", false⟩),
    ("border-bottom-color", ⟨"red", false⟩), ("border-left-color", ⟨"red", false⟩)]

/-- Gathering can move a longhand in front of the property that resets it. -/
theorem border_not_setBehind :
    (∀ x ∈ interleavedBorder.entries, x.2.important = false) ∧
      Before interleavedBorder "border" (borderLonghand "color" "left") ∧
      ¬(borderGroup "color").SetBehind (tidyBlock .common interleavedBorder).1 "border"
        (borderLonghand "color" "left") := by
  decide +kernel

end Stylesheet.Shorthand
