import Stylesheet.Proofs.Declarations.Entries
import Mathlib.Data.List.Induction

/-!
# The order of the winners

Declarations that are read one after the other, each behind all others, leave one declaration for each property: the
one that wins. Where a winner stands depends on the whole history, since a value that takes the place of another moves
to the end and a value that is refused moves nothing. The outcome does not: the winners stand in the order in which
they were given (`Wins`, `exists_places`).

Reading the declarations that have been left over behind others is the same as reading all that they come from
(`merge_ofList`). So it does not matter in which order blocks are merged pairwise (`merge_assoc`).
-/

namespace Stylesheet.Declarations

open List

variable {d e : Declarations} {l : List Declaration} {property other : String} {value : Value} {i : Nat}

/-! ## One more declaration -/

theorem insertAll_append (d : Declarations) (l m : List Declaration) :
    d.insertAll (l ++ m) = (d.insertAll l).insertAll m :=
  foldl_append

theorem ofList_concat (l : List Declaration) (e : Declaration) : ofList (l ++ [e]) = (ofList l).insert e.1 e.2 :=
  insertAll_append empty l [e]

/-- The declarations that have a text. -/
def texts (l : List Declaration) : List Declaration := l.filter fun e => !e.2.text.isEmpty

theorem mem_texts {e : Declaration} : e ∈ texts l ↔ e ∈ l ∧ e.2.text ≠ "" := by
  simp [texts]

theorem texts_concat (l : List Declaration) (e : Declaration) :
    texts (l ++ [e]) = if e.2.text = "" then texts l else texts l ++ [e] := by
  unfold texts
  rw [filter_append]
  split
  · next htext => simp [htext]
  · next htext => simp [htext]

theorem insert_of_text_eq (htext : value.text = "") : d.insert property value = d := by
  simp [insert, accepts, htext]

theorem winner_eq_none_iff {values : List Value} : winner values = none ↔ values = [] := by
  rw [winner, Option.or_eq_none_iff, getLast?_eq_none_iff]
  exact ⟨And.right, fun h => ⟨by simp [h], h⟩⟩

/-- Behind some declarations, the value of a property is the winner among its value there and those with a text. -/
theorem get?_insertAll (d : Declarations) (l : List Declaration) (property : String) :
    (d.insertAll l).get? property = winner (given (d.entries ++ texts l) property) := by
  induction l using reverseRecOn generalizing property with
  | nil =>
    have htexts : d.entries ++ texts [] = d.entries := append_nil _
    rw [htexts, given_entries]
    cases hget : d.get? property with
    | none => exact hget
    | some value =>
      refine hget.trans ?_
      cases himportant : value.important <;> simp [winner, himportant]
  | append_singleton l e ih =>
    have hinsert : d.insertAll (l ++ [e]) = (d.insertAll l).insert e.1 e.2 := insertAll_append d l [e]
    rw [hinsert, texts_concat]
    split
    · next htext => rw [insert_of_text_eq htext, ih]
    · next htext =>
      rw [← append_assoc]
      exact get?_insert_winner ih htext property

theorem get?_ofList (l : List Declaration) (property : String) :
    (ofList l).get? property = winner (given (texts l) property) :=
  get?_insertAll empty l property

/-- An important value is left if there was one, or one with a text is read. -/
theorem any_get?_insertAll (d : Declarations) (l : List Declaration) (property : String) :
    ((d.insertAll l).get? property).any (·.important)
      = ((d.get? property).any (·.important) || (given (texts l) property).any (·.important)) := by
  have hgiven : given (d.entries ++ texts l) property = (d.get? property).toList ++ given (texts l) property := by
    rw [given_append, given_entries]
  rw [get?_insertAll, any_winner, hgiven, any_append]
  cases d.get? property <;> simp

/-- A declaration is taken if it has a text, and is important or comes behind no important one of its property. -/
theorem accepts_ofList (l : List Declaration) (property : String) (value : Value) :
    (ofList l).accepts property value = true ↔
      value.text ≠ "" ∧ (value.important = true ∨
        ∀ w, (property, w) ∈ l → w.text ≠ "" → w.important = false) := by
  have hany : (winner (given (texts l) property)).any (·.important) = false ↔
      ∀ w, (property, w) ∈ l → w.text ≠ "" → w.important = false := by
    simp only [any_winner, any_eq_false, mem_given, mem_texts, and_imp, Bool.not_eq_true]
  rw [accepts, get?_ofList, ← hany]
  simp

/-! ## Which declarations win, and in which order they stand -/

/-- The value at one place keeps its property against the value at another. An important value gives way to later
important ones only; any other gives way to later ones and to important ones. -/
def Withstands (value : Value) (i : Nat) (w : Value) (j : Nat) : Prop :=
  if value.important then w.important = true → j ≤ i else w.important = false ∧ j ≤ i

/-- The declaration at this place of the list wins: it has a text, and it is the last important one of its property
that has one, or the last one if none of them is important. -/
def Wins (l : List Declaration) (i : Nat) : Prop :=
  ∃ property value, l[i]? = some (property, value) ∧ value.text ≠ "" ∧
    ∀ j w, l[j]? = some (property, w) → w.text ≠ "" → Withstands value i w j

theorem Wins.lt_length (h : Wins l i) : i < l.length := by
  obtain ⟨property, value, hi, -⟩ := h
  exact (List.getElem?_eq_some_iff.mp hi).1

/-- The property at a place. -/
def propertyAt (l : List Declaration) (i : Nat) : Option String := l[i]?.map (·.1)

/-- A list and one more declaration have the places of the list and one more. -/
theorem getElem?_concat_eq_some {x e : Declaration} {j : Nat} :
    (l ++ [x])[j]? = some e ↔ l[j]? = some e ∨ j = l.length ∧ x = e := by
  rw [getElem?_append]
  split
  · next hlt => simp [Nat.ne_of_lt hlt]
  · next hge =>
    have hnone : l[j]? = none := getElem?_eq_none (Nat.le_of_not_lt hge)
    have hzero : j - l.length = 0 ↔ j = l.length := by omega
    simp [hnone, getElem?_singleton, hzero]

/-- The last declaration wins if it is taken. -/
theorem wins_concat_length (l : List Declaration) (property : String) (value : Value) :
    Wins (l ++ [(property, value)]) l.length ↔ (ofList l).accepts property value = true := by
  have hnone : l[l.length]? = none := getElem?_eq_none (Nat.le_refl _)
  rw [accepts_ofList]
  constructor
  · rintro ⟨name, winner, hi, htext, hbest⟩
    obtain ⟨rfl, rfl⟩ : property = name ∧ value = winner := by simpa [hnone] using hi
    refine ⟨htext, ?_⟩
    -- an important value is taken whatever stands in front of it
    by_cases himportant : value.important = true
    · exact .inl himportant
    · refine .inr fun w hw hwtext => ?_
      obtain ⟨j, hj⟩ := mem_iff_getElem?.mp hw
      have hwithstands := hbest j w (getElem?_concat_eq_some.mpr (.inl hj)) hwtext
      rw [Withstands, if_neg himportant] at hwithstands
      exact hwithstands.1
  · rintro ⟨htext, htaken⟩
    refine ⟨property, value, by simp, htext, fun j w hj hwtext => ?_⟩
    rw [Withstands]
    rcases getElem?_concat_eq_some.mp hj with hj | ⟨rfl, heq⟩
    · have hle : j ≤ l.length := Nat.le_of_lt (List.getElem?_eq_some_iff.mp hj).1
      split
      · exact fun _ => hle
      · next himportant => exact ⟨htaken.resolve_left himportant w (mem_of_getElem? hj) hwtext, hle⟩
    · obtain rfl : value = w := (Prod.mk.inj heq).2
      split
      · exact fun _ => Nat.le_refl _
      · next himportant => exact ⟨by simpa using himportant, Nat.le_refl _⟩

/-- A declaration in front of the last one wins if it did, unless the last one takes its place. -/
theorem wins_concat_of_lt (property : String) (value : Value) (hi : i < l.length) :
    Wins (l ++ [(property, value)]) i ↔
      Wins l i ∧ ¬ ((ofList l).accepts property value = true ∧ propertyAt l i = some property) := by
  rw [accepts_ofList]
  constructor
  · rintro ⟨name, winner, hplace, htext, hbest⟩
    rcases getElem?_concat_eq_some.mp hplace with hentry | ⟨rfl, -⟩
    · refine ⟨⟨name, winner, hentry, htext, fun j w hj => hbest j w (getElem?_concat_eq_some.mpr (.inl hj))⟩, ?_⟩
      -- against a later declaration of its property the one at this place only stands by being important
      rintro ⟨⟨hvalue, htaken⟩, hname⟩
      obtain rfl : name = property := by simpa [propertyAt, hentry] using hname
      have hlast := hbest l.length value (by simp) hvalue
      unfold Withstands at hlast
      split at hlast
      · next hwinner =>
        rcases htaken with htaken | htaken
        · exact absurd (hlast htaken) (by omega)
        · rw [htaken winner (mem_of_getElem? hentry) htext] at hwinner
          cases hwinner
      · omega
    · omega
  · rintro ⟨⟨name, winner, hentry, htext, hbest⟩, hkept⟩
    refine ⟨name, winner, getElem?_concat_eq_some.mpr (.inl hentry), htext, fun j w hj hwtext => ?_⟩
    rcases getElem?_concat_eq_some.mp hj with hj | ⟨rfl, heq⟩
    · exact hbest j w hj hwtext
    · -- the last declaration was refused, because an important one stands in front of it
      obtain ⟨rfl, rfl⟩ := Prod.mk.inj heq
      have hrefused : ¬ (value.important = true ∨ ∀ w, (property, w) ∈ l → w.text ≠ "" → w.important = false) :=
        fun htaken => hkept ⟨⟨hwtext, htaken⟩, by simp [propertyAt, hentry]⟩
      rw [not_or] at hrefused
      unfold Withstands
      split
      · exact fun himportant => absurd himportant hrefused.1
      · next hwinner =>
        refine absurd (fun x hx hxtext => ?_) hrefused.2
        obtain ⟨k, hk⟩ := mem_iff_getElem?.mp hx
        have hwithstands := hbest k x hk hxtext
        rw [Withstands, if_neg hwinner] at hwithstands
        exact hwithstands.1

/-- One more declaration wins if it is taken, and then the one before it of its property does not. -/
theorem wins_concat (l : List Declaration) (property : String) (value : Value) (i : Nat) :
    Wins (l ++ [(property, value)]) i ↔
      i = l.length ∧ (ofList l).accepts property value = true ∨
      Wins l i ∧ ¬ ((ofList l).accepts property value = true ∧ propertyAt l i = some property) := by
  rcases Nat.lt_trichotomy i l.length with hlt | rfl | hgt
  · rw [wins_concat_of_lt property value hlt]
    simp [Nat.ne_of_lt hlt]
  · rw [wins_concat_length]
    have hout : ¬ Wins l l.length := fun h => absurd h.lt_length (Nat.lt_irrefl _)
    simp [hout]
  · have hout : ¬ Wins l i := fun h => absurd h.lt_length (by omega)
    have hout' : ¬ Wins (l ++ [(property, value)]) i := by
      intro h
      have := h.lt_length
      rw [length_append, length_singleton] at this
      omega
    simp [hout, hout', Nat.ne_of_gt hgt]

/-- Leaving out a property among the declarations at some places. -/
theorem without_filterMap (l : List Declaration) (places : List Nat) (property : String) :
    without (places.filterMap (l[·]?)) property
      = (places.filter fun i => propertyAt l i != some property).filterMap (l[·]?) := by
  rw [without, filter_filterMap, filterMap_filter]
  refine filterMap_congr fun i _ => ?_
  cases hi : l[i]? with
  | none => simp
  | some e => simp [propertyAt, hi, Option.filter_some]

/-- **The declarations that are left** are the winners, in the order in which they were given. -/
theorem exists_places (l : List Declaration) :
    ∃ places : List Nat, places.Pairwise (· < ·) ∧ (∀ i, i ∈ places ↔ Wins l i) ∧
      (ofList l).entries = places.filterMap (l[·]?) := by
  induction l using reverseRecOn with
  | nil => exact ⟨[], .nil, by simp [Wins], rfl⟩
  | append_singleton l e ih =>
    obtain ⟨property, value⟩ := e
    obtain ⟨places, hsorted, hmem, hentries⟩ := ih
    have hlt : ∀ i ∈ places, i < l.length := fun i hi => ((hmem i).mp hi).lt_length
    -- the places in front of the new one still hold the same declarations
    have hold {places' : List Nat} (hsub : places' ⊆ places) :
        places'.filterMap ((l ++ [(property, value)])[·]?) = places'.filterMap (l[·]?) :=
      filterMap_congr fun i hi => getElem?_append_left (hlt i (hsub hi))
    rw [ofList_concat, entries_insert]
    by_cases htaken : (ofList l).accepts property value = true
    · refine ⟨(places.filter fun i => propertyAt l i != some property) ++ [l.length], ?_, fun i => ?_, ?_⟩
      · rw [pairwise_append]
        refine ⟨hsorted.filter _, pairwise_singleton _ _, fun i hi j hj => ?_⟩
        rw [mem_singleton.mp hj]
        exact hlt i (mem_of_mem_filter hi)
      · rw [wins_concat, mem_append, mem_filter, hmem, mem_singleton, or_comm]
        simp [htaken]
      · rw [if_pos htaken, hentries, without_filterMap, filterMap_append, hold filter_sublist.subset]
        simp
    · refine ⟨places, hsorted, fun i => ?_, ?_⟩
      · rw [wins_concat, hmem]
        simp [htaken]
      · rw [if_neg htaken, hentries, hold (List.Subset.refl _)]

/-! ## Merging -/

/-- The same declarations, whatever they say about one property. -/
def SameBut (property : String) (d e : Declarations) : Prop := without d.entries property = without e.entries property

theorem SameBut.get?_eq (h : SameBut property d e) (hother : other ≠ property) : d.get? other = e.get? other := by
  have hlookup := congrArg (lookup other) h
  rwa [lookup_without, lookup_without, if_neg hother, if_neg hother] at hlookup

/-- A declaration of the property makes no difference to the others. -/
theorem sameBut_insert (d : Declarations) (property : String) (value : Value) :
    SameBut property (d.insert property value) d := by
  unfold SameBut
  rw [entries_insert]
  split
  · simp [without]
  · rfl

/-- A declaration of another property is read in the same way. -/
theorem SameBut.insert (h : SameBut property d e) (hother : other ≠ property) (value : Value) :
    SameBut property (d.insert other value) (e.insert other value) := by
  have haccepts : d.accepts other value = e.accepts other value := by
    rw [accepts, accepts, h.get?_eq hother]
  have hcomm (x : Declarations) : without (without x.entries other ++ [(other, value)]) property
      = without (without x.entries property) other ++ [(other, value)] := by
    simp [without, filter_append, filter_filter, Bool.and_comm, hother]
  unfold SameBut at h ⊢
  rw [entries_insert, entries_insert, haccepts]
  split
  · rw [hcomm, hcomm, h]
  · exact h

theorem SameBut.insertAll (h : SameBut property d e) (l : List Declaration) :
    SameBut property (d.insertAll l) (e.insertAll (without l property)) := by
  induction l generalizing d e with
  | nil => exact h
  | cons x l ih =>
    by_cases hx : x.1 = property
    · have hwithout : without (x :: l) property = without l property := by simp [without, hx]
      rw [hwithout]
      refine ih (Eq.trans ?_ h)
      rw [← hx]
      exact sameBut_insert d x.1 x.2
    · have hwithout : without (x :: l) property = x :: without l property := by simp [without, hx]
      rw [hwithout]
      exact ih (h.insert hx x.2)

/-- Where both take a declaration of the property, they become the same. -/
theorem SameBut.insert_eq (h : SameBut property d e) (hd : d.accepts property value = true)
    (he : e.accepts property value = true) : d.insert property value = e.insert property value := by
  refine eq_of_entries_eq ?_
  rw [entries_insert, entries_insert, if_pos hd, if_pos he, h]

/-- Behind an important value those that are not important may as well not be read. -/
theorem insertAll_without (himportant : (d.get? property).any (·.important) = true)
    (hl : ∀ x ∈ l, x.1 = property → x.2.important = false) : d.insertAll l = d.insertAll (without l property) := by
  induction l generalizing d with
  | nil => rfl
  | cons x l ih =>
    have hrest : ∀ y ∈ l, y.1 = property → y.2.important = false := fun y hy => hl y (mem_cons_of_mem _ hy)
    by_cases hx : x.1 = property
    · have hwithout : without (x :: l) property = without l property := by simp [without, hx]
      have hrefused : d.insert x.1 x.2 = d := by
        simp [insert, accepts, hx, himportant, hl x mem_cons_self hx]
      rw [hwithout, ← ih himportant hrest]
      exact congrArg (insertAll · l) hrefused
    · have hwithout : without (x :: l) property = x :: without l property := by simp [without, hx]
      rw [hwithout]
      refine ih ?_ hrest
      rw [get?_insert, if_neg fun h => hx h.2.symm]
      exact himportant

/-- An important value is one of either list. -/
theorem any_get?_merge (he : ∀ x ∈ e.entries, x.2.text ≠ "") (d : Declarations) (property : String) :
    ((d.merge e).get? property).any (·.important)
      = ((d.get? property).any (·.important) || (e.get? property).any (·.important)) := by
  have hgiven : given (texts e.entries) property = (e.get? property).toList := by
    rw [← given_entries]
    congr 1
    exact filter_eq_self.mpr fun x hx => by simpa using he x hx
  rw [merge, any_get?_insertAll, hgiven]
  cases e.get? property <;> simp

/-- Other properties have no part in whether a value is important. -/
theorem any_get?_insertAll_without (d : Declarations) (l : List Declaration) (property : String) :
    ((d.insertAll (without l property)).get? property).any (·.important) = (d.get? property).any (·.important) := by
  have hnone : given (texts (without l property)) property = [] := by
    rw [given_eq_nil_iff]
    intro w hw
    exact absurd (mem_map_of_mem (mem_texts.mp hw).1) (not_mem_without l property)
  rw [any_get?_insertAll, hnone]
  simp

section

variable (he : ∀ x ∈ e.entries, x.2.text ≠ "")
include he

/-- A declaration that the second list takes. -/
theorem merge_insert_of_accepts (d : Declarations)
    (htaken : e.accepts property value = true) :
    d.merge (e.insert property value) = (d.merge e).insert property value := by
  have hleft : d.merge (e.insert property value)
      = (d.insertAll (without e.entries property)).insert property value := by
    rw [merge, entries_insert, if_pos htaken, insertAll_append]
    rfl
  have hsame : SameBut property (d.merge e) (d.insertAll (without e.entries property)) :=
    SameBut.insertAll rfl e.entries
  simp only [accepts, Bool.and_eq_true, Bool.or_eq_true, Bool.not_eq_true'] at htaken
  rw [hleft]
  rcases htaken with ⟨htext, himportant | hplain⟩
  · exact (hsame.insert_eq (by simp [accepts, htext, himportant]) (by simp [accepts, htext, himportant])).symm
  · cases hd : (d.get? property).any (·.important) with
    | false =>
      refine (hsame.insert_eq ?_ ?_).symm
      · simp [accepts, htext, any_get?_merge he, hd, hplain]
      · simp [accepts, htext, any_get?_insertAll_without, hd]
    | true =>
      -- neither the old value nor the new one gets past the important one
      have hunimportant : ∀ x ∈ e.entries, x.1 = property → x.2.important = false := by
        intro x hx hname
        have hget : e.get? property = some x.2 := by
          rw [get?_eq_some_iff, ← hname]
          exact hx
        simpa [hget] using hplain
      rw [← insertAll_without hd hunimportant]
      rfl

/-- What the second list refuses, both lists merged refuse. -/
theorem accepts_merge_eq_false (d : Declarations)
    (hrefused : e.accepts property value = false) : (d.merge e).accepts property value = false := by
  simp only [accepts, Bool.and_eq_false_iff, Bool.or_eq_false_iff, Bool.not_eq_false'] at hrefused
  rw [accepts, any_get?_merge he]
  rcases hrefused with htext | ⟨hvalue, himportant⟩
  · simp [htext]
  · simp [hvalue, himportant]

/-- **One more declaration** can be read before or after merging. -/
theorem merge_insert (d : Declarations) (property : String) (value : Value) :
    d.merge (e.insert property value) = (d.merge e).insert property value := by
  cases htaken : e.accepts property value with
  | true => exact merge_insert_of_accepts he d htaken
  | false =>
    have hrefused := accepts_merge_eq_false he d htaken
    rw [insert, insert, htaken, hrefused]
    rfl

end

theorem text_ne_of_mem_insert (hd : ∀ x ∈ d.entries, x.2.text ≠ "") {x : Declaration}
    (hx : x ∈ (d.insert property value).entries) : x.2.text ≠ "" := by
  rw [entries_insert] at hx
  split at hx
  · next htaken =>
    rcases mem_append.mp hx with hx | hx
    · exact hd x (mem_of_mem_filter hx)
    · rw [mem_singleton.mp hx]
      simp only [accepts, Bool.and_eq_true, Bool.not_eq_true'] at htaken
      simpa using htaken.1
  · exact hd x hx

/-- Everything that is read can be read before or after merging. -/
theorem merge_insertAll (he : ∀ x ∈ e.entries, x.2.text ≠ "") (d : Declarations) (l : List Declaration) :
    d.merge (e.insertAll l) = (d.merge e).insertAll l := by
  induction l generalizing e with
  | nil => rfl
  | cons x l ih =>
    have hinsert := ih (e := e.insert x.1 x.2) fun y hy => text_ne_of_mem_insert he hy
    rw [merge_insert he] at hinsert
    exact hinsert

/-- **Merging is reading on.** -/
theorem merge_ofList (d : Declarations) (l : List Declaration) : d.merge (ofList l) = d.insertAll l :=
  merge_insertAll (e := empty) (fun _ hx => absurd hx not_mem_nil) d l

/-- **Merging is associative**, the order of the declarations included. -/
theorem merge_assoc (he : ∀ x ∈ e.entries, x.2.text ≠ "") (d f : Declarations) :
    (d.merge e).merge f = d.merge (e.merge f) :=
  (merge_insertAll he d f.entries).symm

theorem text_ne_of_mem_ofList {x : Declaration} (hx : x ∈ (ofList l).entries) : x.2.text ≠ "" := by
  obtain ⟨places, -, hwins, hentries⟩ := exists_places l
  rw [hentries, mem_filterMap] at hx
  obtain ⟨i, hi, hplace⟩ := hx
  obtain ⟨property, value, hentry, htext, -⟩ := (hwins i).mp hi
  obtain rfl := Option.some.inj (hentry.symm.trans hplace)
  exact htext

/-- **Reading declarations is the cascade.** Of the declarations that are read one after the other, each property keeps
at most one, and it keeps one exactly if one of them gives it a text. Its value is the last important one, or the last
one if none is important. The declarations that are kept stand in the order in which they were given. Merging what has
been read goes on reading, and is associative. -/
theorem ofList_is_cascade (l : List Declaration) :
    (∀ property, ((ofList l).entries.map Prod.fst).count property ≤ 1) ∧
    (∀ property, (ofList l).contains property = true ↔ ∃ value, (property, value) ∈ l ∧ value.text ≠ "") ∧
    (∀ property, (ofList l).get? property = winner (given (texts l) property)) ∧
    (∃ places : List Nat, places.Pairwise (· < ·) ∧ (∀ i, i ∈ places ↔ Wins l i) ∧
      (ofList l).entries = places.filterMap (l[·]?)) ∧
    (∀ m, (ofList l).merge (ofList m) = ofList (l ++ m)) ∧
    ∀ m n, ((ofList l).merge (ofList m)).merge (ofList n) = (ofList l).merge ((ofList m).merge (ofList n)) := by
  refine ⟨fun property => List.nodup_iff_count_le_one.mp (ofList l).distinct property, fun property => ?_,
    get?_ofList l, exists_places l, fun m => ?_, fun m n => merge_assoc (fun _ => text_ne_of_mem_ofList) _ _⟩
  · have hkept : (∃ value, (property, value) ∈ (ofList l).entries) ↔ given (texts l) property ≠ [] := by
      simp only [← get?_eq_some_iff, get?_ofList, ← Option.ne_none_iff_exists', Ne, winner_eq_none_iff]
    rw [contains_iff, hkept, Ne, given_eq_nil_iff]
    simp [mem_texts]
  · rw [merge_ofList, ofList, ofList, insertAll_append]

end Stylesheet.Declarations
