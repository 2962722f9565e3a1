import Mathlib.Data.List.Perm.Subperm
import Mathlib.Data.List.Pairwise
import Mathlib.Data.List.Induction

/-!
# Taking like elements of a list together

Two passes over the children of a block take some of them together: those of one name, and the selectors with equal
declarations. In both, the first of those that are alike takes in the others and stays where it stands. One pass takes
each child in its turn into those in front of it, the other one looks for what is like a child behind it.

`condense` is the first of these on any list, for any likeness and any way to take one element into another, and
`Likens.condense_cons` shows that it is the second one too. What is left, and how it has come to be, is said without
recursion in `Likens.mem_condense_iff`.
-/

namespace Stylesheet

open List

variable {α β : Type}

/-- Takes an element into the first one that it is like, or puts it behind all of them. -/
def takeIn (like : α → α → Bool) (take : α → α → α) (a : α) : List α → List α
  | [] => [a]
  | b :: l => if like b a then take b a :: l else b :: takeIn like take a l

/-- Takes each element into the first one in front of it that it is like. -/
def condense (like : α → α → Bool) (take : α → α → α) (l : List α) : List α :=
  l.foldl (fun l a => takeIn like take a l) []

section Step

variable {like : α → α → Bool} {take : α → α → α}

theorem condense_concat (l : List α) (a : α) :
    condense like take (l ++ [a]) = takeIn like take a (condense like take l) := by
  rw [condense, foldl_append, foldl_cons, foldl_nil]
  rfl

/-- The element is taken in by the first one that it is like. -/
theorem takeIn_of_like {left right : List α} {a b : α} (hleft : ∀ c ∈ left, like c a = false) (hlike : like b a = true) :
    takeIn like take a (left ++ b :: right) = left ++ take b a :: right := by
  induction left with
  | nil => rw [nil_append, takeIn, if_pos hlike, nil_append]
  | cons c left ih =>
    rw [forall_mem_cons] at hleft
    rw [cons_append, takeIn, hleft.1, if_neg Bool.false_ne_true, ih hleft.2, cons_append]

/-- An element that is like none of the others is put behind them. -/
theorem takeIn_of_unlike {l : List α} {a : α} (hl : ∀ c ∈ l, like c a = false) : takeIn like take a l = l ++ [a] := by
  induction l with
  | nil => rfl
  | cons c l ih =>
    rw [forall_mem_cons] at hl
    rw [takeIn, hl.1, if_neg Bool.false_ne_true, ih hl.2, cons_append]

/-- An element is put behind the others, or one that it is like has taken it in. -/
theorem takeIn_cases (like : α → α → Bool) (take : α → α → α) (a : α) (l : List α) :
    (∀ c ∈ l, like c a = false) ∧ takeIn like take a l = l ++ [a] ∨
    ∃ left b right, l = left ++ b :: right ∧ (∀ c ∈ left, like c a = false) ∧ like b a = true ∧
      takeIn like take a l = left ++ take b a :: right := by
  by_cases hl : ∀ c ∈ l, like c a = false
  · exact .inl ⟨hl, takeIn_of_unlike hl⟩
  · have hsome : (l.find? fun c => like c a).isSome = true := by simpa using hl
    obtain ⟨b, hb⟩ := Option.isSome_iff_exists.mp hsome
    obtain ⟨hlike, left, right, rfl, hleft⟩ := find?_eq_some_iff_append.mp hb
    have hunlike : ∀ c ∈ left, like c a = false := fun c hc => by simpa using hleft c hc
    exact .inr ⟨left, b, right, rfl, hunlike, hlike, takeIn_of_like hunlike hlike⟩

/-! ## What is kept -/

/-- What is left is in the order in which it was. -/
theorem map_condense_sublist {key : α → β} (hkey : ∀ a b, key (take a b) = key a) (l : List α) :
    ((condense like take l).map key).Sublist (l.map key) := by
  induction l using reverseRecOn with
  | nil => exact .refl _
  | append_singleton l a ih =>
    rw [condense_concat, map_append]
    rcases takeIn_cases like take a (condense like take l) with ⟨-, htake⟩ | ⟨left, b, right, hsplit, -, -, htake⟩
    · rw [htake, map_append]
      exact ih.append (.refl _)
    · rw [hsplit] at ih
      rw [htake, map_append, map_cons, hkey, ← map_cons, ← map_append]
      exact ih.trans (sublist_append_left _ _)

/-- What is in an element and in those that it takes in is in what becomes of it. -/
theorem perm_flatMap_condense {f : α → List β} (hf : ∀ a b, like a b = true → (f (take a b)).Perm (f a ++ f b))
    (l : List α) : ((condense like take l).flatMap f).Perm (l.flatMap f) := by
  induction l using reverseRecOn with
  | nil => exact .refl _
  | append_singleton l a ih =>
    rw [condense_concat, flatMap_append, flatMap_singleton]
    rcases takeIn_cases like take a (condense like take l) with ⟨-, htake⟩ | ⟨left, b, right, hsplit, -, hlike, htake⟩
    · rw [htake, flatMap_append, flatMap_singleton]
      exact ih.append_right _
    · rw [hsplit, flatMap_append, flatMap_cons] at ih
      rw [htake, flatMap_append, flatMap_cons]
      calc
        _ = left.flatMap f ++ (f (take b a) ++ right.flatMap f) := rfl
        List.Perm _ (left.flatMap f ++ (f b ++ f a ++ right.flatMap f)) := ((hf b a hlike).append_right _).append_left _
        List.Perm _ (left.flatMap f ++ (f b ++ right.flatMap f ++ f a)) := by
          rw [append_assoc, append_assoc]
          exact (perm_append_comm.append_left _).append_left _
        List.Perm _ (l.flatMap f ++ f a) := by
          rw [← append_assoc]
          exact ih.append_right _

/-- Elements that are like nothing are left as they are. -/
theorem filter_condense {p : α → Bool}
    (hp : ∀ a b, like a b = true → p a = false ∧ p b = false ∧ p (take a b) = false) (l : List α) :
    (condense like take l).filter p = l.filter p := by
  induction l using reverseRecOn with
  | nil => rfl
  | append_singleton l a ih =>
    rw [condense_concat, filter_append, ← ih]
    rcases takeIn_cases like take a (condense like take l) with ⟨-, htake⟩ | ⟨left, b, right, hsplit, -, hlike, htake⟩
    · rw [htake, filter_append]
    · obtain ⟨hb, ha, htaken⟩ := hp b a hlike
      rw [htake, hsplit]
      simp [ha, hb, htaken]

/-- Every element is in one that is left. -/
theorem exists_mem_condense {le : α → α → Prop} (hrefl : ∀ a, le a a) (htrans : ∀ a b c, le a b → le b c → le a c)
    (hfirst : ∀ a b, like a b = true → le a (take a b)) (htaken : ∀ a b, like a b = true → le b (take a b)) {l : List α}
    {x : α} (hx : x ∈ l) : ∃ y ∈ condense like take l, le x y := by
  induction l using reverseRecOn with
  | nil => cases hx
  | append_singleton l a ih =>
    rw [condense_concat]
    rcases takeIn_cases like take a (condense like take l) with ⟨-, htake⟩ | ⟨left, b, right, hsplit, -, hlike, htake⟩
    · rw [htake]
      rcases mem_append.mp hx with hx | hx
      · obtain ⟨y, hy, hle⟩ := ih hx
        exact ⟨y, mem_append_left _ hy, hle⟩
      · exact ⟨x, mem_append_right _ hx, hrefl x⟩
    · rw [htake]
      have hself : take b a ∈ left ++ take b a :: right := mem_append_right _ mem_cons_self
      rcases mem_append.mp hx with hx | hx
      · obtain ⟨y, hy, hle⟩ := ih hx
        rw [hsplit, mem_append, mem_cons] at hy
        rcases hy with hy | rfl | hy
        · exact ⟨y, mem_append_left _ hy, hle⟩
        · exact ⟨_, hself, htrans _ _ _ hle (hfirst _ _ hlike)⟩
        · exact ⟨y, mem_append_right _ (mem_cons_of_mem _ hy), hle⟩
      · rw [mem_singleton.mp hx]
        exact ⟨_, hself, htaken _ _ hlike⟩

/-- Like elements can be taken together after a part of them is looked at, if that part tells what is alike. -/
theorem filterMap_condense {view : α → Option β} {like' : β → β → Bool} {take' : β → β → β}
    (hlike : ∀ a b, like a b = (view a).any fun x => (view b).any (like' x))
    (htake : ∀ a b x y, view a = some x → view b = some y → view (take a b) = some (take' x y)) (l : List α) :
    (condense like take l).filterMap view = condense like' take' (l.filterMap view) := by
  have hstep (a : α) (l : List α) : (takeIn like take a l).filterMap view =
      ((view a).map fun x => takeIn like' take' x (l.filterMap view)).getD (l.filterMap view) := by
    induction l with
    | nil => cases ha : view a <;> simp [takeIn, ha]
    | cons b l ih =>
      rw [takeIn, hlike]
      cases hb : view b with
      | none => simpa [hb] using ih
      | some y =>
        cases ha : view a with
        | none => simpa [hb, ha] using ih
        | some x =>
          by_cases hyx : like' y x = true
          · simp [hb, takeIn, hyx, htake b a y x hb ha]
          · simpa [hb, ha, takeIn, hyx] using ih
  induction l using reverseRecOn with
  | nil => rfl
  | append_singleton l a ih =>
    rw [condense_concat, hstep, ih, filterMap_append]
    cases ha : view a with
    | none => simp [ha]
    | some x => simp [ha, condense_concat]

end Step

/-! ## What is left -/

/-- The likeness splits elements into kinds, and an element that takes in another one stays of its kind. -/
structure Likens (like : α → α → Bool) (take : α → α → α) : Prop where
  symm : ∀ a b, like a b = true → like b a = true
  trans : ∀ a b c, like a b = true → like b c = true → like a c = true
  like_take : ∀ a b c, like (take a b) c = like a c

namespace Likens

variable {like : α → α → Bool} {take : α → α → α} (hlike : Likens like take)
include hlike

theorem comm (a b : α) : like a b = like b a := Bool.eq_iff_iff.mpr ⟨hlike.symm a b, hlike.symm b a⟩

/-- Elements of one kind are like the same ones. -/
theorem like_eq_false {a b c : α} (hab : like a b = true) (hac : like a c = false) : like b c = false :=
  Bool.eq_false_iff.mpr fun hbc => Bool.eq_false_iff.mp hac (hlike.trans a b c hab hbc)

/-- No two elements that are left are alike. -/
theorem pairwise_condense (l : List α) : (condense like take l).Pairwise fun a b => like a b = false := by
  induction l using reverseRecOn with
  | nil => exact .nil
  | append_singleton l a ih =>
    rw [condense_concat]
    rcases takeIn_cases like take a (condense like take l) with ⟨hunlike, htake⟩ | ⟨left, b, right, hsplit, -, -, htake⟩
    · rw [htake]
      exact pairwise_append.mpr ⟨ih, pairwise_singleton _ _, fun c hc x hx => mem_singleton.mp hx ▸ hunlike c hc⟩
    · have hcomm (c : α) : like c (take b a) = like c b := by rw [hlike.comm, hlike.like_take, hlike.comm]
      rw [hsplit, pairwise_append, pairwise_cons] at ih
      rw [htake, pairwise_append, pairwise_cons]
      simp only [forall_mem_cons, hlike.like_take, hcomm] at ih ⊢
      exact ih

/-- The first element takes in all that is like it behind it, and the others are taken together without these. -/
theorem condense_cons (a : α) (l : List α) : condense like take (a :: l) =
    (l.filter (like a)).foldl take a :: condense like take (l.filter fun b => !like a b) := by
  have hfront (l : List α) (a : α) (done : List α) : l.foldl (fun l a => takeIn like take a l) (a :: done) =
      (l.filter (like a)).foldl take a :: (l.filter fun b => !like a b).foldl (fun l a => takeIn like take a l) done := by
    induction l generalizing a done with
    | nil => rfl
    | cons b l ih =>
      rw [foldl_cons, takeIn]
      cases hab : like a b with
      | true =>
        have hkind : like (take a b) = like a := funext (hlike.like_take a b)
        simp [hab, ih, hkind]
      | false => simp [hab, ih]
  exact hfront l a []

/-- Leaving out one kind leaves out nothing of the others. -/
theorem filter_unlike {a b : α} (hba : like b a = false) (l : List α) :
    (l.filter fun c => !like b c).filter (like a) = l.filter (like a) := by
  rw [filter_filter]
  refine filter_congr fun c _ => ?_
  cases hac : like a c with
  | false => rfl
  | true =>
    have hcb : like c b = false := hlike.like_eq_false hac (by rw [hlike.comm, hba])
    rw [hlike.comm, hcb]
    rfl

/-- **What is left** is what was like nothing in front of it, with all that is like it behind it taken in. -/
theorem mem_condense_iff {l : List α} {x : α} : x ∈ condense like take l ↔
    ∃ left a right, l = left ++ a :: right ∧ (∀ c ∈ left, like c a = false) ∧ x = (right.filter (like a)).foldl take a := by
  induction hlength : l.length using Nat.strongRecOn generalizing l with
  | ind n ih =>
    cases l with
    | nil => simp [condense]
    | cons b l =>
      have hshort : (l.filter fun c => !like b c).length < n := by
        rw [← hlength, length_cons]
        exact Nat.lt_succ_of_le (length_filter_le _ _)
      rw [hlike.condense_cons, mem_cons, ih _ hshort rfl]
      constructor
      · rintro (rfl | ⟨left, a, right, hsplit, hfirst, rfl⟩)
        · exact ⟨[], b, l, rfl, by simp, rfl⟩
        · obtain ⟨front, tail, rfl, rfl, htail⟩ := filter_eq_append_iff.mp hsplit
          obtain ⟨mid, back, rfl, hmid, ha, rfl⟩ := filter_eq_cons_iff.mp htail
          have hba : like b a = false := by simpa using ha
          refine ⟨b :: (front ++ mid), a, back, by simp, ?_, by rw [hlike.filter_unlike hba]⟩
          rw [forall_mem_cons]
          refine ⟨hba, fun c hc => ?_⟩
          -- an element in front of it was left out only if it is like the first
          cases hbc : like b c with
          | true => exact hlike.like_eq_false hbc hba
          | false =>
            rcases mem_append.mp hc with hc | hc
            · exact hfirst c (mem_filter.mpr ⟨hc, by rw [hbc]; rfl⟩)
            · exact absurd (by rw [hbc]; rfl) (hmid c hc)
      · rintro ⟨left, a, right, hsplit, hfirst, rfl⟩
        cases left with
        | nil =>
          cases hsplit
          exact .inl rfl
        | cons c left =>
          obtain ⟨rfl, rfl⟩ : b = c ∧ l = left ++ a :: right := by simpa using hsplit
          rw [forall_mem_cons] at hfirst
          obtain ⟨hba, hfirst⟩ := hfirst
          refine .inr ⟨left.filter fun c => !like b c, a, right.filter fun c => !like b c, ?_, ?_, by rw [hlike.filter_unlike hba]⟩
          · rw [filter_append, filter_cons_of_pos (by rw [hba]; rfl)]
          · exact fun c hc => hfirst c (mem_of_mem_filter hc)

end Likens

/-! ## Elements with keys -/

/-- The first of those that are alike have gathered the others, and stand in the order in which they stood. -/
structure Condenses (like : α → α → Bool) (gather : α → List α → α) (l l' : List (β × α)) : Prop where
  order : (l'.map Prod.fst).Sublist (l.map Prod.fst)
  mem_iff : ∀ left key a right, l = left ++ (key, a) :: right → ∀ x, (key, x) ∈ l' ↔
    (∀ c ∈ left, like c.2 a = false) ∧ x = gather a ((right.map Prod.snd).filter (like a))

section Keys

variable {like : α → α → Bool} {take : α → α → α}

/-- The key of an element that takes in others stays, whatever their keys are. -/
def condenseKeyed (like : α → α → Bool) (take : α → α → α) (l : List (β × α)) : List (β × α) :=
  condense (fun a b => like a.2 b.2) (fun a b => (a.1, take a.2 b.2)) l

theorem Likens.keyed (hlike : Likens like take) :
    Likens (fun a b : β × α => like a.2 b.2) (fun a b => (a.1, take a.2 b.2)) where
  symm a b := hlike.symm a.2 b.2
  trans a b c := hlike.trans a.2 b.2 c.2
  like_take a b c := hlike.like_take a.2 b.2 c.2

theorem foldl_keyed (l : List (β × α)) (a : β × α) :
    l.foldl (fun a b => (a.1, take a.2 b.2)) a = (a.1, (l.map Prod.snd).foldl take a.2) := by
  induction l generalizing a with
  | nil => rfl
  | cons b l ih => rw [foldl_cons, ih, map_cons, foldl_cons]

/-- **Elements with keys of their own** that are taken together: what is left is known from where a key stands. -/
theorem Likens.condenses (hlike : Likens like take) {gather : α → List α → α} (hgather : ∀ a l, l.foldl take a = gather a l)
    {l : List (β × α)} (hnodup : (l.map Prod.fst).Nodup) : Condenses like gather l (condenseKeyed like take l) := by
  have horder : ((condenseKeyed like take l).map Prod.fst).Sublist (l.map Prod.fst) := by
    refine map_condense_sublist ?_ l
    exact fun _ _ => rfl
  refine ⟨horder, fun left key a right hsplit x => ?_⟩
  have hgathered (right : List (β × α)) : (right.filter fun b => like a b.2).foldl (fun a b => (a.1, take a.2 b.2)) (key, a) =
      (key, gather a ((right.map Prod.snd).filter (like a))) := by
    rw [foldl_keyed, hgather, filter_map]
    rfl
  rw [condenseKeyed, hlike.keyed.mem_condense_iff]
  constructor
  · rintro ⟨left', ⟨key', a'⟩, right', hsplit', hfirst, heq⟩
    rw [foldl_keyed] at heq
    obtain rfl : key = key' := congrArg Prod.fst heq
    -- a key stands in one place
    rw [hsplit', map_append, map_cons, nodup_append, nodup_cons] at hnodup
    have hleft : (key, a) ∉ left' := fun h =>
      hnodup.2.2 key (mem_map.mpr ⟨_, h, rfl⟩) key mem_cons_self rfl
    have hright : (key, a) ∉ right' := fun h => hnodup.2.1.1 (mem_map.mpr ⟨_, h, rfl⟩)
    obtain ⟨rfl, heq', rfl⟩ := (append_cons_inj_of_notMem hleft hright).mp (hsplit'.symm.trans hsplit)
    cases heq'
    rw [← foldl_keyed, hgathered] at heq
    exact ⟨hfirst, congrArg Prod.snd heq⟩
  · rintro ⟨hfirst, rfl⟩
    exact ⟨left, (key, a), right, hsplit, hfirst, (hgathered right).symm⟩

end Keys

end Stylesheet
