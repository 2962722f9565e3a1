import Stylesheet.Proofs.Shorthand.Compress
import Stylesheet.Proofs.Text.Trim

/-!
# Leaving words out of the corners

Leaving words out of a box a second time changes nothing. The value for the corners is cut at its slashes and
trimmed before words are left out, and trimming takes off more than the space characters that end a word. So leaving
words out of the corners is final for plain texts (`compressRadius_compressRadius`), where a word has no white space at
its ends: without a backslash no space character is escaped, and without other white space than the space characters
nothing but these can be trimmed.
-/

open List

namespace Stylesheet.Text

variable {c : Char} {n : Nesting} {s : List Char}

/-- A text of basic characters without a backslash or a carriage return. -/
def Plain (text : String) : Prop := ∀ c ∈ text.toList, c ≠ '\\' ∧ c ≠ '\r' ∧ c.toNat < 128

instance (text : String) : Decidable (Plain text) :=
  decidableBAll (fun c => c ≠ '\\' ∧ c ≠ '\r' ∧ c.toNat < 128) text.toList

theorem isBlank_of_isSpace (h : isSpace c = true) : isBlank c = true := by
  simp only [isSpace, Bool.or_eq_true, beq_iff_eq, or_assoc] at h
  rcases h with rfl | rfl | rfl | rfl | rfl <;> decide

/-- In a plain text white space is space. -/
theorem isSpace_of_isBlank (hreturn : c ≠ '\r') (hbasic : c.toNat < 128) (h : isBlank c = true) : isSpace c = true := by
  have hall : ∀ n < 128, n ≠ 13 → inRanges blankRanges n = true → isSpace (Char.ofNat n) = true := by decide
  have hne : c.toNat ≠ 13 := by
    intro hn
    apply hreturn
    rw [← Char.ofNat_toNat c, hn]
  rw [← Char.ofNat_toNat c]
  exact hall c.toNat hbasic hne h

/-! ## The ends of words -/

theorem Nesting.Proper.after (h : n.Proper) (s : List Char) : (n.after s).Proper := by
  induction s generalizing n with
  | nil => exact h
  | cons c s ih => exact ih (h.next c)

theorem Nesting.escaped_after (hn : n.escaped = false) (h : ∀ c ∈ s, c ≠ '\\') : (n.after s).escaped = false := by
  induction s generalizing n with
  | nil => exact hn
  | cons c s ih =>
    obtain ⟨hc, hs⟩ := forall_mem_cons.mp h
    exact ih (by simp [escaped_next, hc]) hs

/-- A closed part without backslashes does not end in the separator: it would be free there. -/
theorem getLast?_ne_of_whole (hwhole : Whole ' ' .outside s)
    (hclosed : Nesting.outside.after s = .outside) (h : ∀ c ∈ s, c ≠ '\\') : s.getLast? ≠ some ' ' := by
  intro hlast
  obtain ⟨front, rfl⟩ := getLast?_eq_some_iff.mp hlast
  have hproper : (Nesting.outside.after front).Proper :=
    Nesting.Proper.after (fun q hq => by simp [Nesting.outside] at hq) front
  have hescaped : (Nesting.outside.after front).escaped = false :=
    Nesting.escaped_after rfl fun c hc => h c (mem_append_left _ hc)
  have hblank := (whole_cons.mp (whole_append.mp hwhole).2).1
  rw [Nesting.after_append, Nesting.after_cons, Nesting.after_nil,
    Nesting.next_of_isInert isInert_blank fun hq => absurd (hproper ' ' hq) (by decide), ← hescaped] at hclosed
  exact hblank ⟨rfl, hclosed, rfl⟩

/-- The last part of a text ends as the text does. -/
theorem getLast?_splitFrom {sep : Char} (n : Nesting) (h : s.getLast? = some c) (hc : c ≠ sep) :
    ∃ part, (splitFrom sep n s).getLast? = some part ∧ part.getLast? = some c := by
  induction s generalizing n with
  | nil => exact absurd h nofun
  | cons x s ih =>
    rcases eq_nil_or_concat s with rfl | ⟨_, _, hs⟩
    · obtain rfl : x = c := by simpa using h
      have hsplit : splitFrom sep n [x] = [[x]] := splitFrom_cons (fun hsep => hc hsep.1) []
      exact ⟨[x], by rw [hsplit]; rfl, rfl⟩
    · have hne : s ≠ [] := by simp [hs]
      have hlast : s.getLast? = some c := by
        rwa [← singleton_append, getLast?_append_of_ne_nil _ hne] at h
      obtain ⟨part, hpart, hend⟩ := ih (n.next x) hlast
      obtain ⟨front, hparts⟩ := getLast?_eq_some_iff.mp hpart
      by_cases hsep : x == sep && n.free && !nests x
      · refine ⟨part, ?_, hend⟩
        rw [splitFrom, if_pos hsep, hparts, ← cons_append, getLast?_concat]
      · have hmodify : splitFrom sep n (x :: s) = (splitFrom sep (n.next x) s).modifyHead (x :: ·) :=
          splitFrom_cons (by simpa [Nesting.free_iff, and_assoc] using hsep) s
        cases front with
        | nil =>
          refine ⟨x :: part, by simp [hmodify, hparts], ?_⟩
          rw [← singleton_append, getLast?_append_of_ne_nil _ (by rintro rfl; simp at hend), hend]
        | cons first front =>
          refine ⟨part, ?_, hend⟩
          rw [hmodify, hparts, cons_append, modifyHead_cons, ← cons_append, getLast?_concat]

/-- The last word of a text without space at its end ends as the text does. -/
theorem getLast?_words {text : String} (h : text.toList.getLast? = some c) (hc : isSpace c = false) :
    ∃ w, (words text).getLast? = some w ∧ w.toList.getLast? = some c := by
  have hblanked : (blanked text.toList).getLast? = some c := by
    rw [blanked, getLast?_map, h]
    simp [hc]
  obtain ⟨part, hpart, hend⟩ := @getLast?_splitFrom c _ ' ' .outside hblanked (by rintro rfl; simp [isSpace] at hc)
  obtain ⟨front, hparts⟩ := getLast?_eq_some_iff.mp hpart
  have hne : part.isEmpty = false := by
    cases part with
    | nil => simp at hend
    | cons => rfl
  refine ⟨String.ofList part, ?_, by rwa [String.toList_ofList]⟩
  rw [words_eq, hparts, filter_append, filter_cons_of_pos (by simp [hne]), filter_nil, map_append,
    map_singleton, getLast?_concat]

theorem Plain.of_subset {s t : String} (h : Plain s) (hsub : ∀ c ∈ t.toList, c = ' ' ∨ c = '/' ∨ c ∈ s.toList) :
    Plain t := by
  intro c hc
  rcases hsub c hc with rfl | rfl | hmem
  · decide
  · decide
  · exact h c hmem

/-- A word of a plain text without white space at its end has none at its ends either. -/
theorem trimmed_of_mem_words {text w : String} (hplain : Plain text) (htext : Trimmed isBlank text.toList)
    (hw : w ∈ words text) : Trimmed isBlank w.toList := by
  have hword : Plain w := hplain.of_subset fun c hc => (mem_of_mem_words hw hc).imp_right .inr
  obtain ⟨-, hblanked, hwhole⟩ := words_eq_singleton_iff.mp ((sideBySide_words text).word w hw)
  have hspace : ∀ c ∈ w.toList, isSpace c = true → c = ' ' := blanked_eq_self_iff.mp hblanked
  have hblank : ∀ c ∈ w.toList, isBlank c = true → c = ' ' := fun c hc hb =>
    hspace c hc (isSpace_of_isBlank (hword c hc).2.1 (hword c hc).2.2 hb)
  constructor
  · intro c hc
    rw [Bool.eq_false_iff]
    intro hb
    obtain ⟨rest, hcons⟩ := head?_eq_some_iff.mp hc
    obtain rfl := hblank c (mem_of_head? hc) hb
    rw [hcons] at hwhole
    exact (whole_cons.mp hwhole).1 ⟨rfl, rfl, rfl⟩
  · intro c hc
    rw [Bool.eq_false_iff]
    intro hb
    obtain rfl := hblank c (mem_of_getLast? hc) hb
    by_cases hlast : some w = (words text).getLast?
    · -- the last word ends as the text does
      cases htail : text.toList.getLast? with
      | none =>
        have hnil : text.toList = [] := getLast?_eq_none_iff.mp htail
        rw [words_eq, hnil] at hw
        simp [blanked, splitFrom] at hw
      | some x =>
        have hx : isSpace x = false := by
          rw [Bool.eq_false_iff]
          intro hxspace
          simpa [isBlank_of_isSpace hxspace] using htext.last x htail
        obtain ⟨v, hv, hend⟩ := getLast?_words htail hx
        obtain rfl : w = v := Option.some.inj (hlast.trans hv)
        obtain rfl : ' ' = x := Option.some.inj (hc.symm.trans hend)
        simp [isSpace] at hx
    · have hclosed := (sideBySide_words text).closed w (mem_dropLast_of_mem_of_ne_getLast? hw hlast)
      exact getLast?_ne_of_whole hwhole hclosed (fun x hx => (hword x hx).1) hc

end Stylesheet.Text

namespace Stylesheet.Shorthand

open Text

variable {text : String}

/-! ## A second time -/

theorem mem_compress {c : Char} (h : c ∈ (compress text).toList) : c = ' ' ∨ c ∈ text.toList := by
  have hsep : " ".toList = [' '] := rfl
  obtain ⟨rest, hrest⟩ := exists_append_compressWords (words text)
  rw [compress, compressed, toList_joinWith, hsep] at h
  rcases mem_intercalate h with rfl | ⟨part, hpart, hc⟩
  · exact .inl rfl
  · obtain ⟨w, hw, rfl⟩ := mem_map.mp hpart
    exact mem_of_mem_words (hrest ▸ mem_append_left rest hw) hc

theorem mem_trimBlank {c : Char} (h : c ∈ (trimBlank text).toList) : c ∈ text.toList := by
  obtain ⟨left, right, htext, -⟩ := exists_trimBoth isBlank text.toList
  rw [trimBlank, String.toList_ofList] at h
  rw [htext]
  exact mem_append_left _ (mem_append_right _ h)

/-- The words that are left of a plain text need no trimming. -/
theorem trimBlank_compress (h : Plain text) : trimBlank (compress (trimBlank text)) = compress (trimBlank text) := by
  have hplain : Plain (trimBlank text) := h.of_subset fun c hc => .inr (.inr (mem_trimBlank hc))
  have htrimmed : Trimmed isBlank (trimBlank text).toList := by
    rw [trimBlank, String.toList_ofList]
    exact trimmed_trimBoth isBlank text.toList
  have hjoined : Trimmed isBlank (compress (trimBlank text)).toList := by
    have hsep : " ".toList = [' '] := rfl
    obtain ⟨rest, hrest⟩ := exists_append_compressWords (words (trimBlank text))
    rw [compress, compressed, toList_joinWith, hsep]
    refine trimmed_intercalate (forall_mem_map.mpr fun w hw => ?_)
    have hmem : w ∈ words (trimBlank text) := hrest ▸ mem_append_left rest hw
    have hne : w ≠ "" := (words_eq_singleton_iff.mp ((sideBySide_words _).word w hmem)).1
    exact ⟨by simpa using hne, trimmed_of_mem_words hplain htrimmed hmem⟩
  rw [trimBlank, hjoined.trimBoth_eq, String.ofList_toList]

theorem notMem_of_mem_splitOn {sep : Char} {s part : List Char} (h : part ∈ s.splitOn sep) : sep ∉ part := by
  induction s generalizing part with
  | nil => simp_all
  | cons c s ih =>
    rw [splitOn_cons_eq_if_modifyHead] at h
    split at h
    · rcases mem_cons.mp h with rfl | hrest
      · exact not_mem_nil
      · exact ih hrest
    · next hc =>
      obtain ⟨first, rest, hparts⟩ := exists_cons_of_ne_nil (@splitOn_ne_nil _ _ sep s)
      rw [hparts, modifyHead_cons, mem_cons] at h
      rcases h with rfl | hrest
      · have hfirst : sep ∉ first := ih (hparts ▸ mem_cons_self)
        have hne : sep ≠ c := fun heq => hc (by simp [heq])
        simp [hfirst, hne]
      · exact ih (hparts ▸ mem_cons_of_mem _ hrest)

/-- A text cut at its slashes. -/
theorem exists_joinWith (text : String) : ∃ halves, halves ≠ [] ∧ text = joinWith "/" halves ∧
    ∀ half ∈ halves, '/' ∉ half.toList ∧ half.toList.Sublist text.toList := by
  refine ⟨(text.toList.splitOn '/').map String.ofList, by simp [splitOn_ne_nil], ?_, ?_⟩
  · exact (Text.joinWith_splitOn '/' text).symm
  · refine forall_mem_map.mpr fun part hpart => ?_
    have hsub := @sublist_intercalate _ '/' _ hpart
    rw [intercalate_splitOn] at hsub
    rw [String.toList_ofList]
    exact ⟨notMem_of_mem_splitOn hpart, hsub⟩

theorem compressRadius_joinWith {halves : List String} (hne : halves ≠ []) (h : ∀ half ∈ halves, '/' ∉ half.toList) :
    compressRadius (joinWith "/" halves)
      = joinWith "/" (if halves.length ≤ 2 then halves.map fun half => compress (trimBlank half) else halves) := by
  have hsep : "/".toList = ['/'] := rfl
  have hsplit : ((joinWith "/" halves).toList.splitOn '/').map String.ofList = halves := by
    have hparts : String.ofList ∘ String.toList = id := funext fun _ => String.ofList_toList
    rw [toList_joinWith, hsep, splitOn_intercalate '/' (forall_mem_map.mpr h) (by simpa using hne),
      map_map, hparts, map_id]
  simp only [compressRadius, hsplit]
  split <;> rfl

theorem plain_compressRadius (h : Plain text) : Plain (compressRadius text) := by
  obtain ⟨halves, hne, htext, hhalves⟩ := exists_joinWith text
  have hradius := compressRadius_joinWith hne fun half hmem => (hhalves half hmem).1
  rw [← htext] at hradius
  split at hradius
  · have hsep : "/".toList = ['/'] := rfl
    refine h.of_subset fun c hc => ?_
    rw [hradius, toList_joinWith, hsep] at hc
    rcases mem_intercalate hc with rfl | ⟨part, hpart, hc⟩
    · exact .inr (.inl rfl)
    · rw [map_map] at hpart
      obtain ⟨half, hmem, rfl⟩ := mem_map.mp hpart
      refine (mem_compress hc).imp_right fun htrim => .inr ?_
      exact (hhalves half hmem).2.subset (mem_trimBlank htrim)
  · rwa [hradius, ← htext]

/-- **Leaving words out of the corners a second time** changes nothing in a plain text. -/
theorem compressRadius_compressRadius (h : Plain text) :
    compressRadius (compressRadius text) = compressRadius text := by
  obtain ⟨halves, hne, htext, hhalves⟩ := exists_joinWith text
  have hradius := compressRadius_joinWith hne fun half hmem => (hhalves half hmem).1
  rw [← htext] at hradius
  by_cases hcount : halves.length ≤ 2
  · have hslash : ∀ half ∈ halves, '/' ∉ (compress (trimBlank half)).toList := by
      intro half hmem hin
      rcases mem_compress hin with hblank | htrim
      · exact absurd hblank (by decide)
      · exact (hhalves half hmem).1 (mem_trimBlank htrim)
    have hagain : ∀ half ∈ halves, compress (trimBlank (compress (trimBlank half))) = compress (trimBlank half) := by
      intro half hmem
      have hplain : Plain half := h.of_subset fun c hc => .inr (.inr ((hhalves half hmem).2.subset hc))
      rw [trimBlank_compress hplain, compress_compress]
    have hmap : (halves.map fun half => compress (trimBlank half)).map (fun half => compress (trimBlank half))
        = halves.map fun half => compress (trimBlank half) := by
      rw [map_map]
      refine map_congr_left fun half hmem => ?_
      rw [Function.comp_apply, hagain half hmem]
    rw [if_pos hcount] at hradius
    rw [hradius, compressRadius_joinWith (by simpa using hne) (forall_mem_map.mpr hslash),
      if_pos (by rwa [length_map]), hmap]
  · have hkept : compressRadius text = text := by rw [hradius, if_neg hcount, ← htext]
    rw [hkept, hkept]

end Stylesheet.Shorthand
