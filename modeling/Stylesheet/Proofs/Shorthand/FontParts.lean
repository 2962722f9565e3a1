import Stylesheet.Shorthand.Font
import Stylesheet.Proofs.Shorthand.Corners
import Stylesheet.Proofs.Text.Strings

/-!
# Telling the parts of a font value apart

In front of the size stand keywords, each of which is taken for style, variant or weight. The first word that is not
taken has to be the size (`exists_sizeWord`), and all that is behind it belongs to the line height and the family.

Words are split outside of parentheses, but the line height is looked for behind the first slash of the size, wherever
that stands. So a font value with balanced parentheses has balanced parts, unless the first slash of its size stands
inside of parentheses (`balanced_fontParts_iff`).
-/

namespace Stylesheet.Shorthand

open Text String Option

/-- The words that may stand in front of the size. -/
def fontKeywords : List String := "normal" :: "small-caps" :: (fontStyles ++ fontWeights)

/-- A keyword, in letters of either case. -/
def isFontKeyword (word : String) : Bool := fontKeywords.contains (lower word)

/-- A keyword for the weight, in letters of either case. -/
def isFontWeight (word : String) : Bool := fontWeights.contains (lower word)

namespace FontParts

open List

variable {f' : FontParts} {right left : List Char}
variable {f g : FontParts} {word : String} {front back ws : List String}

/-! ## Keywords -/

/-- How many weights can still be taken. -/
def room (f : FontParts) : Nat := if f.weight.isNone then 1 else 0

/-- A keyword that is taken tells nothing about what comes behind the keywords. -/
theorem tell?_eq_some (h : f.tell? word = some g) :
    isFontKeyword word = true ∧ g.room + (if isFontWeight word then 1 else 0) = f.room ∧ g.size = f.size ∧
      g.lineHeight = f.lineHeight ∧ g.family = f.family ∧ g.slashed = f.slashed := by
  have hstyles : ∀ s ∈ fontStyles, fontKeywords.contains s = true ∧ fontWeights.contains s = false := by decide
  have hweights : ∀ s ∈ fontWeights, fontKeywords.contains s = true := by decide
  simp only [tell?] at h
  split at h
  · next hnormal =>
    obtain rfl := some.inj h
    have hknown : lower word = "normal" := beq_iff_eq.mp hnormal
    have hno : isFontWeight word = false := by rw [isFontWeight, hknown]; decide
    refine ⟨by rw [isFontKeyword, hknown]; decide, by rw [hno]; rfl, rfl, rfl, rfl, rfl⟩
  split at h
  · next hweight =>
    obtain rfl := some.inj h
    obtain ⟨hnone, hmem⟩ := Bool.and_eq_true_iff.mp hweight
    have hyes : isFontWeight word = true := hmem
    refine ⟨hweights _ (contains_iff_mem.mp hmem), ?_, rfl, rfl, rfl, rfl⟩
    simp [room, hyes, isNone_iff_eq_none.mp hnone]
  split at h
  · next hvariant =>
    obtain rfl := some.inj h
    have hknown : lower word = "small-caps" := beq_iff_eq.mp (Bool.and_eq_true_iff.mp hvariant).2
    have hno : isFontWeight word = false := by rw [isFontWeight, hknown]; decide
    refine ⟨by rw [isFontKeyword, hknown]; decide, by rw [hno]; rfl, rfl, rfl, rfl, rfl⟩
  split at h
  · next hstyle =>
    obtain rfl := some.inj h
    obtain ⟨hkeyword, hno⟩ := hstyles _ (contains_iff_mem.mp (Bool.and_eq_true_iff.mp hstyle).2)
    have hno : isFontWeight word = false := hno
    exact ⟨hkeyword, by rw [hno]; rfl, rfl, rfl, rfl, rfl⟩
  · cases h

/-- The only keyword that may stand for the size is a second weight. -/
theorem isFontWeight_of_tell?_eq_none (hkeyword : isFontKeyword word = true)
    (hsize : looksLikeSize (lower word) = true) (h : f.tell? word = none) : isFontWeight word = true ∧ f.room = 0 := by
  have hsizes : ∀ s ∈ fontKeywords, looksLikeSize s = true → fontWeights.contains s = true := by decide
  have hweight := hsizes _ (contains_iff_mem.mp hkeyword) hsize
  refine ⟨hweight, ?_⟩
  have hnone : f.weight.isNone = false := by
    rw [tell?] at h
    grind
  simp [room, hnone]

/-- What one word in front of the size can be. -/
theorem add?_cases (hsize : f.size = none) (h : f.add? word = some g) :
    f.tell? word = some g ∨ f.tell? word = none ∧ looksLikeSize (lower word) = true ∧ g = f.addSize word := by
  simp only [add?, hsize, isSome_none, Bool.false_eq_true, if_false] at h
  split at h
  · next told htold => exact .inl (htold.trans h)
  · next hnone =>
    split at h
    · next hlooks => exact .inr ⟨hnone, hlooks, (some.inj h).symm⟩
    · cases h

/-! ## The size -/

/-- Keywords that can be taken one after the other, as far as the weight goes. -/
def Preface (f : FontParts) (front : List String) : Prop :=
  (∀ word ∈ front, isFontKeyword word = true) ∧ front.countP isFontWeight ≤ f.room

theorem preface_cons (h : f.tell? word = some g) : f.Preface (word :: front) ↔ g.Preface front := by
  obtain ⟨hkeyword, hroom, -⟩ := tell?_eq_some h
  rw [Preface, Preface, List.forall_mem_cons, countP_cons]
  constructor
  · rintro ⟨⟨-, hfront⟩, hcount⟩
    exact ⟨hfront, by omega⟩
  · rintro ⟨hfront, hcount⟩
    exact ⟨⟨hkeyword, hfront⟩, by omega⟩

theorem foldlM_cons_eq_some (h : (word :: ws).foldlM add? f = some f') :
    ∃ g, f.add? word = some g ∧ ws.foldlM add? g = some f' := by
  rw [foldlM_cons] at h
  exact bind_eq_some_iff.mp h

/-- **The word for the size** stands behind keywords, of which one is a weight at most. -/
theorem exists_sizeWord (hsize : f.size = none) (h : ws.foldlM add? f = some f')
    (hsome : f'.size.isSome = true) :
    ∃ front word back g, ws = front ++ word :: back ∧ f.Preface front ∧ front.foldlM tell? f = some g ∧
      looksLikeSize (lower word) = true ∧ g.lineHeight = f.lineHeight ∧ back.foldlM add? (g.addSize word) = some f' := by
  induction ws generalizing f with
  | nil =>
    obtain rfl : f = f' := some.inj h
    simp [hsize] at hsome
  | cons word ws ih =>
    obtain ⟨g, hadd, hrest⟩ := foldlM_cons_eq_some h
    rcases add?_cases hsize hadd with htold | ⟨-, hlooks, rfl⟩
    · obtain ⟨-, -, hgsize, hgheight, -⟩ := tell?_eq_some htold
      obtain ⟨front, size, back, k, rfl, hpreface, hfront, hlooks, hheight, hrest⟩ := ih (hgsize.trans hsize) hrest
      refine ⟨word :: front, size, back, k, rfl, (preface_cons htold).mpr hpreface, ?_, hlooks, hheight.trans hgheight,
        hrest⟩
      rw [foldlM_cons, htold]
      exact hfront
    · exact ⟨[], word, ws, f, rfl, ⟨by simp, by simp⟩, rfl, hlooks, rfl, hrest⟩

/-- Keywords of which one is a weight at most are all taken, if the value can be read. -/
theorem exists_foldlM_of_preface (hsize : f.size = none) (hpreface : f.Preface front)
    (h : (front ++ ws).foldlM add? f = some f') : ∃ g, g.size = none ∧ ws.foldlM add? g = some f' := by
  induction front generalizing f with
  | nil => exact ⟨f, hsize, h⟩
  | cons word front ih =>
    obtain ⟨g, hadd, hrest⟩ := foldlM_cons_eq_some h
    rcases add?_cases hsize hadd with htold | ⟨hnone, hlooks, -⟩
    · obtain ⟨-, -, hgsize, -⟩ := tell?_eq_some htold
      exact ih (hgsize.trans hsize) ((preface_cons htold).mp hpreface) hrest
    · -- a second weight: there is no room for it
      obtain ⟨hkeywords, hcount⟩ := hpreface
      obtain ⟨hweight, hroom⟩ := isFontWeight_of_tell?_eq_none (hkeywords word mem_cons_self) hlooks hnone
      rw [countP_cons, hweight, if_pos rfl, hroom] at hcount
      omega

/-! ## Behind the size -/

theorem size_addBehind (f : FontParts) (word : String) : (f.addBehind word).size = f.size := by
  unfold addBehind
  grind

theorem foldlM_behind (hsize : f.size.isSome = true) : ws.foldlM add? f = some (ws.foldl addBehind f) := by
  induction ws generalizing f with
  | nil => rfl
  | cons word ws ih =>
    rw [foldlM_cons, add?, if_pos hsize]
    exact ih (by rwa [size_addBehind])

theorem size_foldl_addBehind (f : FontParts) (ws : List String) : (ws.foldl addBehind f).size = f.size := by
  induction ws generalizing f with
  | nil => rfl
  | cons word ws ih => rw [foldl_cons, ih, size_addBehind]

/-! ## The slash -/

theorem cutSlash?_cases (word : String) :
    cutSlash? word = none ∧ '/' ∉ word.toList ∨
      ∃ left right, word.toList = left ++ '/' :: right ∧ '/' ∉ left ∧
        cutSlash? word = some (ofList left, ofList right) := by
  have hleft : '/' ∉ word.toList.takeWhile (· != '/') := fun hmem => by
    simpa using mem_takeWhile_imp hmem
  have hword := takeWhile_append_dropWhile (p := (· != '/')) (l := word.toList)
  rw [cutSlash?]
  cases hbehind : word.toList.dropWhile (· != '/') with
  | nil =>
    rw [hbehind, append_nil] at hword
    exact .inl ⟨rfl, hword ▸ hleft⟩
  | cons slash right =>
    have hslash : slash = '/' := by
      have hhead := head?_dropWhile_not (· != '/') word.toList
      rw [hbehind] at hhead
      simpa using hhead
    rw [hbehind, hslash] at hword
    exact .inr ⟨_, right, hword.symm, hleft, rfl⟩

theorem cutSlash?_of_eq (h : word.toList = left ++ '/' :: right) (hleft : '/' ∉ left) :
    cutSlash? word = some (ofList left, ofList right) := by
  have hne : ∀ c ∈ left, (c != '/') = true := fun c hc => bne_iff_ne.mpr (ne_of_mem_of_not_mem hc hleft)
  rw [cutSlash?, h, dropWhile_append_of_pos hne, takeWhile_append_of_pos hne]
  simp

/-- The size is what stands in front of the first slash. -/
theorem size_addSize (f : FontParts) (h : word.toList = left ++ '/' :: right)
    (hleft : '/' ∉ left) : (f.addSize word).size = some (ofList left) := by
  rw [addSize, cutSlash?_of_eq h hleft]
  dsimp only
  split <;> rfl

/-! ## Balanced parts -/

/-- All parts but the size and the line height are balanced. -/
structure Sound (f : FontParts) : Prop where
  style : ∀ t ∈ f.style, Balanced t.toList
  variant : ∀ t ∈ f.variant, Balanced t.toList
  weight : ∀ t ∈ f.weight, Balanced t.toList
  family : ∀ t ∈ f.family, Balanced t.toList

theorem sound_empty : ({} : FontParts).Sound := ⟨nofun, nofun, nofun, nofun⟩

theorem Sound.tell? (hf : f.Sound) (hword : Balanced word.toList) (h : f.tell? word = some g) : g.Sound := by
  obtain ⟨hstyle, hvariant, hweight, hfamily⟩ := hf
  have hsome : ∀ t ∈ some word, Balanced t.toList := by simpa using hword
  rw [FontParts.tell?] at h
  split at h
  · exact some.inj h ▸ ⟨hstyle, hvariant, hweight, hfamily⟩
  split at h
  · exact some.inj h ▸ ⟨hstyle, hvariant, hsome, hfamily⟩
  split at h
  · exact some.inj h ▸ ⟨hstyle, hsome, hweight, hfamily⟩
  split at h
  · exact some.inj h ▸ ⟨hsome, hvariant, hweight, hfamily⟩
  · cases h

theorem Sound.foldlM_tell? (hf : f.Sound) (hws : ∀ word ∈ ws, Balanced word.toList)
    (h : ws.foldlM FontParts.tell? f = some g) : g.Sound := by
  induction ws generalizing f with
  | nil => exact some.inj h ▸ hf
  | cons word ws ih =>
    obtain ⟨hword, hws⟩ := List.forall_mem_cons.mp hws
    rw [foldlM_cons] at h
    obtain ⟨k, hk, hrest⟩ := bind_eq_some_iff.mp h
    exact ih (hf.tell? hword hk) hws hrest

theorem Sound.addSize (hf : f.Sound) (word : String) : (f.addSize word).Sound := by
  unfold FontParts.addSize
  split
  · exact ⟨hf.style, hf.variant, hf.weight, hf.family⟩
  · split <;> exact ⟨hf.style, hf.variant, hf.weight, hf.family⟩

theorem Sound.addBehind (hf : f.Sound) (hword : Balanced word.toList) : (f.addBehind word).Sound := by
  unfold FontParts.addBehind
  split
  · exact ⟨hf.style, hf.variant, hf.weight, hf.family⟩
  split
  · split <;> exact ⟨hf.style, hf.variant, hf.weight, hf.family⟩
  · refine ⟨hf.style, hf.variant, hf.weight, ?_⟩
    exact forall_mem_append.mpr ⟨hf.family, by simpa using hword⟩

/-- A slash in front of a balanced text. -/
theorem balanced_cons_slash {s : List Char} : Balanced ('/' :: s) ↔ Balanced s := by
  rw [Text.Balanced, Text.Balanced, depthBehind?_cons, openBehind?_of_ne (by decide) (by decide), bind_some]

/-- What is behind the first slash of a balanced word is balanced if what is in front of it is. -/
theorem balanced_behind (h : Balanced (left ++ '/' :: right)) (hleft : Balanced left) : Balanced right := by
  rw [Text.Balanced, depthBehind?_append, hleft] at h
  exact balanced_cons_slash.mp h

theorem balanced_lineHeight_addBehind (hf : ∀ t ∈ f.lineHeight, Balanced t.toList) (hword : Balanced word.toList) :
    ∀ t ∈ (f.addBehind word).lineHeight, Balanced t.toList := by
  unfold FontParts.addBehind
  split
  · simpa using hword
  split
  · split
    · exact hf
    · intro t ht
      dsimp only at ht
      rw [dropStart?] at ht
      split at ht
      · next hstart =>
        obtain ⟨s, hs⟩ := isPrefixOf_iff_prefix.mp hstart
        have hslash : "/".toList = ['/'] := rfl
        obtain rfl := some.inj ht
        rw [hslash, singleton_append] at hs
        rw [hslash, toList_ofList, ← hs]
        exact balanced_cons_slash.mp (hs ▸ hword)
      · cases ht
  · exact hf

theorem sound_behind (hf : f.Sound) (hws : ∀ word ∈ ws, Balanced word.toList) :
    (ws.foldl FontParts.addBehind f).Sound ∧ ((∀ t ∈ f.lineHeight, Balanced t.toList) →
      ∀ t ∈ (ws.foldl FontParts.addBehind f).lineHeight, Balanced t.toList) := by
  induction ws generalizing f with
  | nil => exact ⟨hf, id⟩
  | cons word ws ih =>
    obtain ⟨hword, hws⟩ := List.forall_mem_cons.mp hws
    obtain ⟨hsound, hheight⟩ := ih (hf.addBehind hword) hws
    exact ⟨hsound, fun h => hheight (balanced_lineHeight_addBehind h hword)⟩

/-- The first slash of a word stands inside of parentheses. -/
def SlashInside (word : String) : Prop :=
  ∃ left right, word.toList = left ++ '/' :: right ∧ '/' ∉ left ∧ (Nesting.outside.after left).depth ≠ 0

/-- **The size is cut well** unless the slash stands inside of parentheses, and then so is the line height. -/
theorem exists_size_addSize (f : FontParts) (hquoteless : Quoteless word) (hword : Balanced word.toList) :
    ∃ size, (f.addSize word).size = some size ∧ (Balanced size.toList ↔ ¬ SlashInside word) ∧
      (Balanced size.toList → (∀ t ∈ f.lineHeight, Balanced t.toList) →
        ∀ t ∈ (f.addSize word).lineHeight, Balanced t.toList) := by
  rcases cutSlash?_cases word with ⟨hcut, hno⟩ | ⟨left, right, hchars, hleft, hcut⟩
  · refine ⟨word, by rw [addSize, hcut], iff_of_true hword ?_, fun _ h => ?_⟩
    · rintro ⟨left, right, h, -⟩
      exact hno (h ▸ mem_append_right left mem_cons_self)
    · rwa [addSize, hcut]
  · refine ⟨ofList left, size_addSize f hchars hleft, ?_, fun hbalanced h => ?_⟩
    · rw [toList_ofList]
      have hplain : ∀ c ∈ left, c ≠ '"' ∧ c ≠ '\'' ∧ c ≠ '\\' := fun c hc =>
        hquoteless c (hchars ▸ mem_append_left _ hc)
      constructor
      · rintro hbalanced ⟨left', right', hchars', hleft', hdepth⟩
        have hsame : ofList left' = ofList left :=
          some.inj ((size_addSize f hchars' hleft').symm.trans (size_addSize f hchars hleft))
        obtain rfl := ofList_injective hsame
        exact hdepth (Nesting.Level.after_of_depthBehind? ⟨rfl, rfl⟩ hplain hbalanced)
      · intro hinside
        by_contra hbalanced
        refine hinside ⟨left, right, hchars, hleft, fun hdepth => hbalanced ?_⟩
        exact (Balanced.cut hplain (hchars ▸ hword) hdepth).1
    · rw [toList_ofList] at hbalanced
      rw [hchars] at hword
      rw [addSize, hcut]
      dsimp only
      split
      · exact h
      · intro t ht
        obtain rfl := some.inj ht
        rw [toList_ofList]
        exact balanced_behind hword hbalanced

/-! ## The word for the size -/

/-- A word with a slash is no keyword. -/
theorem tell?_of_slash (h : '/' ∈ word.toList) : f.tell? word = none := by
  have hkeywords : ∀ s ∈ fontKeywords, '/' ∉ s.toList := by decide
  cases htold : f.tell? word with
  | none => rfl
  | some g =>
    refine absurd ?_ (hkeywords _ (contains_iff_mem.mp (tell?_eq_some htold).1))
    rw [lower, toList_ofList]
    exact mem_map.mpr ⟨'/', h, rfl⟩

/-- The size of a value that can be read is the word behind the keywords. -/
theorem exists_read?_eq_some (h : read? ws = some f) (hsome : f.size.isSome = true) :
    ∃ front word back g, ws = front ++ word :: back ∧ (∀ keyword ∈ front, isFontKeyword keyword = true) ∧
      front.countP isFontWeight ≤ 1 ∧ front.foldlM tell? {} = some g ∧ g.lineHeight = none ∧
      looksLikeSize (lower word) = true ∧ f = back.foldl addBehind (g.addSize word) := by
  obtain ⟨front, word, back, g, rfl, hpreface, hfront, hlooks, hheight, hrest⟩ := exists_sizeWord rfl h hsome
  have hsize : (g.addSize word).size.isSome = true := by
    rw [addSize]
    split
    · rfl
    · split <;> rfl
  rw [foldlM_behind hsize] at hrest
  exact ⟨front, word, back, g, rfl, hpreface.1, hpreface.2, hfront, hheight, hlooks, (some.inj hrest).symm⟩

/-- Where a word with a slash stands behind the keywords, its part in front of the slash is the size. -/
theorem size_of_slash
    (h : read? (front ++ word :: back) = some f) (hkeywords : ∀ keyword ∈ front, isFontKeyword keyword = true)
    (hcount : front.countP isFontWeight ≤ 1) (hchars : word.toList = left ++ '/' :: right) (hleft : '/' ∉ left) :
    f.size = some (ofList left) := by
  obtain ⟨g, hsize, hrest⟩ := exists_foldlM_of_preface (f := {}) rfl ⟨hkeywords, hcount⟩ h
  obtain ⟨k, hadd, hrest⟩ := foldlM_cons_eq_some hrest
  have hnone : g.tell? word = none := tell?_of_slash (hchars ▸ mem_append_right left mem_cons_self)
  rcases add?_cases hsize hadd with htold | ⟨-, -, rfl⟩
  · exact absurd (hnone.symm.trans htold) nofun
  · have hsize := size_addSize g hchars hleft
    rw [foldlM_behind (by rw [hsize]; rfl)] at hrest
    rw [← some.inj hrest, size_foldl_addBehind, hsize]

/-- The word for the size has its first slash inside of parentheses. It is the first word of a font value behind the
keywords, of which one is a weight at most. -/
def CutsCall (ws : List String) : Prop :=
  ∃ front word back, ws = front ++ word :: back ∧ (∀ keyword ∈ front, isFontKeyword keyword = true) ∧
    front.countP isFontWeight ≤ 1 ∧ looksLikeSize (lower word) = true ∧ SlashInside word

/-- Balanced words have balanced parts, unless the slash for the line height stands inside of parentheses. -/
theorem sound_read? {size : String} (hws : ∀ w ∈ ws, Quoteless w ∧ Balanced w.toList) (h : read? ws = some f)
    (hsize : f.size = some size) :
    f.Sound ∧ (Balanced size.toList ↔ ¬ CutsCall ws) ∧
      (Balanced size.toList → ∀ t ∈ f.lineHeight, Balanced t.toList) := by
  obtain ⟨front, word, back, g, hwords, hkeywords, hcount, hfront, hnoHeight, hlooks, rfl⟩ :=
    exists_read?_eq_some h (by rw [hsize]; rfl)
  obtain ⟨hfrontWords, hword, hback⟩ :=
    (forall_mem_append.mp (hwords ▸ hws)).imp_right List.forall_mem_cons.mp
  have hg : g.Sound := sound_empty.foldlM_tell? (fun w hw => (hfrontWords w hw).2) hfront
  obtain ⟨hsound, hheight⟩ := sound_behind (hg.addSize word) fun w hw => (hback w hw).2
  obtain ⟨cut, hcut, hcutIff, hcutHeight⟩ := g.exists_size_addSize hword.1 hword.2
  obtain rfl : cut = size := by
    rw [size_foldl_addBehind, hcut] at hsize
    exact some.inj hsize
  refine ⟨hsound, ⟨?_, fun hno => ?_⟩, fun hbalanced => hheight (hcutHeight hbalanced (by simp [hnoHeight]))⟩
  · rintro hbalanced ⟨front', word', back', rfl, hkeywords', hcount', -, left, right, hchars, hleft, hdepth⟩
    obtain rfl : cut = ofList left :=
      some.inj (hsize.symm.trans (size_of_slash h hkeywords' hcount' hchars hleft))
    rw [toList_ofList] at hbalanced
    have hplain := (hws word' (mem_append_right _ mem_cons_self)).1
    refine hdepth (Nesting.Level.after_of_depthBehind? ⟨rfl, rfl⟩ (fun c hc => ?_) hbalanced)
    exact hplain c (hchars ▸ mem_append_left _ hc)
  · exact hcutIff.mpr fun hinside => hno ⟨front, word, back, hwords, hkeywords, hcount, hlooks, hinside⟩

/-- The texts of the longhands. -/
def texts (f : FontParts) (size : String) (families : List String) : List String :=
  [f.style.getD "normal", f.variant.getD "normal", f.weight.getD "normal", size, f.lineHeight.getD "normal",
    families.foldl (fun s t => s ++ "," ++ trimBlank t) (firstFamily f.family)]

end FontParts

/-! ## Dissolving -/

theorem dissolveFont?_eq_some {value : Value} {longhands : List Declaration} (h : dissolveFont? value = some longhands) :
    ∃ head families f size, split ',' (trimBlank value.text) = head :: families ∧
      FontParts.read? (words head) = some f ∧ f.size = some size ∧
      longhands = (fontLonghands.zip (f.texts size families)).map fun x => (x.1, { value with text := x.2 }) := by
  simp only [dissolveFont?] at h
  split at h
  · cases h
  split at h
  · cases h
  · next head families hsplit =>
    split at h
    · cases h
    · next f hread =>
      split at h
      · cases h
      · next size hsize =>
        split at h
        · cases h
        · exact ⟨head, families, f, size, hsplit, hread, hsize, (some.inj h).symm⟩

theorem balanced_joinWith {sep : String} (hsep : Balanced sep.toList) {ts : List String}
    (h : ∀ t ∈ ts, Balanced t.toList) : Balanced (joinWith sep ts).toList := by
  induction ts with
  | nil => exact balanced_nil
  | cons t ts ih =>
    obtain ⟨ht, hts⟩ := List.forall_mem_cons.mp h
    cases ts with
    | nil => exact ht
    | cons u ts =>
      rw [joinWith, toList_append, toList_append]
      exact (ht.append hsep).append (ih hts)

theorem balanced_firstFamily {ws : List String} (h : ∀ w ∈ ws, Balanced w.toList) : Balanced (firstFamily ws).toList := by
  have hjoined : Balanced (joinWith " " ws).toList := balanced_joinWith (by decide) h
  have hquote : Balanced "\"".toList := by decide
  simp only [firstFamily]
  split
  · rw [toList_append, toList_append]
    exact (hquote.append hjoined).append hquote
  · exact hjoined

theorem balanced_trimBlank {text : String} : Balanced (trimBlank text).toList ↔ Balanced text.toList := by
  rw [trimBlank, toList_ofList]
  exact balanced_trimBoth (by decide) (by decide)

theorem balanced_families {first : String} (hfirst : Balanced first.toList) {families : List String}
    (h : ∀ t ∈ families, Balanced t.toList) :
    Balanced (families.foldl (fun s t => s ++ "," ++ trimBlank t) first).toList := by
  have hcomma : Balanced ",".toList := by decide
  induction families generalizing first with
  | nil => exact hfirst
  | cons t families ih =>
    obtain ⟨ht, hfamilies⟩ := List.forall_mem_cons.mp h
    refine ih ?_ hfamilies
    rw [toList_append, toList_append]
    exact (hfirst.append hcomma).append (balanced_trimBlank.mpr ht)

theorem balanced_getD {t : Option String} (h : ∀ s ∈ t, Balanced s.toList) : Balanced (t.getD "normal").toList := by
  cases t with
  | none => decide
  | some s => exact h s rfl

/-- **A font value is cut outside of its parentheses** unless the slash for the line height stands inside. If a value
without quotes and backslashes has balanced parentheses, then so have style, variant, weight and family, and all six
parts have if the first slash in the word for the size is not inside of parentheses, and only then. -/
theorem balanced_fontParts_iff {value : Value} {longhands : List Declaration} (hquoteless : Quoteless value.text)
    (hbalanced : Balanced value.text.toList) (h : dissolveFont? value = some longhands) :
    (∀ x ∈ longhands, x.1 ≠ "font-size" → x.1 ≠ "line-height" → Balanced x.2.text.toList) ∧
      ((∀ x ∈ longhands, Balanced x.2.text.toList) ↔
        ∀ head ∈ (split ',' (trimBlank value.text)).head?, ¬ FontParts.CutsCall (words head)) := by
  obtain ⟨head, families, f, size, hsplit, hread, hsize, rfl⟩ := dissolveFont?_eq_some h
  have hcomma : IsInert ',' := ⟨rfl, by decide⟩
  have hquoteless : Quoteless (trimBlank value.text) := fun c hc => hquoteless c (mem_trimBlank hc)
  have hparts : ∀ part ∈ head :: families, Quoteless part ∧ Balanced part.toList := by
    intro part hpart
    rw [← hsplit] at hpart
    exact ⟨hquoteless.of_mem_split hcomma hpart,
      balanced_of_mem_split hquoteless (balanced_trimBlank.mpr hbalanced) hcomma hpart⟩
  obtain ⟨⟨hhead, hheadBalanced⟩, hfamilies⟩ := List.forall_mem_cons.mp hparts
  obtain ⟨hsound, hcut, hheight⟩ := FontParts.sound_read?
    (fun w hw => ⟨hhead.of_mem_words hw, balanced_of_mem_words hhead hheadBalanced hw⟩) hread hsize
  have hfamily := balanced_families (balanced_firstFamily hsound.family) fun t ht => (hfamilies t ht).2
  simp only [fontLonghands, FontParts.texts, List.zip_cons_cons, List.zip_nil_left, List.map_cons, List.map_nil,
    List.forall_mem_cons, hsplit, List.head?_cons, Option.mem_some_iff, forall_eq']
  refine ⟨by simp [balanced_getD hsound.style, balanced_getD hsound.variant, balanced_getD hsound.weight, hfamily], ?_⟩
  constructor
  · rintro ⟨-, -, -, hsizeBalanced, -⟩
    exact hcut.mp hsizeBalanced
  · intro hno
    have hsizeBalanced := hcut.mpr hno
    simp [balanced_getD hsound.style, balanced_getD hsound.variant, balanced_getD hsound.weight, hfamily, hsizeBalanced,
      balanced_getD (hheight hsizeBalanced)]

/-- A size and a line height that are both calculated. -/
def calculatedFont : Value := ⟨"italic 400 calc(1em + 2px)/calc(3 / 2) Times (New) Roman,serif", true⟩

theorem balanced_fontParts_calculatedFont :
    Quoteless calculatedFont.text ∧ Balanced calculatedFont.text.toList ∧
      dissolveFont? calculatedFont
        = some [("font-style", ⟨"italic", true⟩), ("font-variant", ⟨"normal", true⟩), ("font-weight", ⟨"400", true⟩),
          ("font-size", ⟨"calc(1em + 2px)", true⟩), ("line-height", ⟨"calc(3 / 2)", true⟩),
          ("font-family", ⟨"\"Times (New) Roman\",serif", true⟩)] ∧
      ¬ FontParts.CutsCall (words "italic 400 calc(1em + 2px)/calc(3 / 2) Times (New) Roman") := by
  have hquoteless : Quoteless calculatedFont.text := by decide +kernel
  have hbalanced : Balanced calculatedFont.text.toList := by decide +kernel
  have hdissolve : dissolveFont? calculatedFont
      = some [("font-style", ⟨"italic", true⟩), ("font-variant", ⟨"normal", true⟩), ("font-weight", ⟨"400", true⟩),
        ("font-size", ⟨"calc(1em + 2px)", true⟩), ("line-height", ⟨"calc(3 / 2)", true⟩),
        ("font-family", ⟨"\"Times (New) Roman\",serif", true⟩)] := by decide +kernel
  refine ⟨hquoteless, hbalanced, hdissolve, ?_⟩
  exact (balanced_fontParts_iff hquoteless hbalanced hdissolve).2.mp (by decide +kernel) _ (by decide +kernel)

/-- A calculation with a slash is cut in two, for the size and for the line height. -/
theorem fontParts_dividedSize :
    Quoteless "calc(10px/2) serif" ∧ Balanced "calc(10px/2) serif".toList ∧
      dissolveFont? ⟨"calc(10px/2) serif", false⟩
        = some [("font-style", ⟨"normal", false⟩), ("font-variant", ⟨"normal", false⟩), ("font-weight", ⟨"normal", false⟩),
          ("font-size", ⟨"calc(10px", false⟩), ("line-height", ⟨"2)", false⟩), ("font-family", ⟨"serif", false⟩)] ∧
      ¬ Balanced "calc(10px".toList ∧ ¬ Balanced "2)".toList := by
  refine ⟨?_, ?_, ?_, ?_, ?_⟩ <;> decide +kernel

end Stylesheet.Shorthand
