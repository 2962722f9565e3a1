import Stylesheet.Proofs.Text.Cursor
import Stylesheet.Proofs.Text.Split
import Stylesheet.Proofs.Text.Trim
import Mathlib.Data.List.Induction

/-!
# Joined texts

Texts that are joined with commas are found again by splitting (`split_joinWith`). What the texts have none of, the joined
text has none of either, unless it is the separator. The other way round, a text is always its parts joined again, and no
part can be split any further (`split_is_lossless`).
-/

namespace Stylesheet.Text

open List

variable {ws ts : List String}

theorem isInert_comma : IsInert ',' := ⟨rfl, by decide⟩

theorem occursIn_iff {needle s : String} : occursIn needle s = true ↔ needle.toList <:+: s.toList := by
  have hchars (t : List Char) : occursInChars needle.toList t = true ↔ needle.toList <:+: t := by
    induction t with
    | nil => simp [occursInChars]
    | cons c t ih => rw [occursInChars, Bool.or_eq_true, ih, isPrefixOf_iff_prefix, infix_cons_iff]
  exact hchars s.toList

theorem joinWith_cons_of_ne_nil (sep t : String) (h : ts ≠ []) : joinWith sep (t :: ts) = t ++ sep ++ joinWith sep ts := by
  cases ts with
  | nil => exact absurd rfl h
  | cons u ts => rfl

theorem joinWith_append (sep : String) (hws : ws ≠ []) (hts : ts ≠ []) :
    joinWith sep (ws ++ ts) = joinWith sep ws ++ sep ++ joinWith sep ts := by
  induction ws with
  | nil => exact absurd rfl hws
  | cons w ws ih =>
    cases ws with
    | nil => exact joinWith_cons_of_ne_nil sep w hts
    | cons v ws =>
      rw [cons_append, joinWith_cons_of_ne_nil sep w (by simp), ih (by simp), joinWith_cons_of_ne_nil sep w (by simp)]
      simp only [String.append_assoc]

/-- Closed words without free separators of another kind are joined to such a text. -/
theorem whole_joinWith {sep : Char} (hsep : sep ≠ ' ') (h : ∀ w ∈ ws, Whole sep .outside w.toList ∧ Closed w) :
    Whole sep .outside (joinWith " " ws).toList ∧ Closed (joinWith " " ws) := by
  induction ws with
  | nil => exact ⟨whole_nil, rfl⟩
  | cons w ws ih =>
    obtain ⟨⟨hwhole, hclosed⟩, hws⟩ := forall_mem_cons.mp h
    cases ws with
    | nil => exact ⟨hwhole, hclosed⟩
    | cons v ws =>
      obtain ⟨hrest, hend⟩ := ih hws
      have hblank : " ".toList = [' '] := rfl
      have hafter : Nesting.outside.after w.toList = .outside := hclosed
      simp only [Closed, joinWith, String.toList_append, hblank, append_assoc, whole_append, Nesting.after_append,
        hafter, singleton_append, whole_cons, Nesting.after_cons, isInert_blank.next_outside]
      exact ⟨⟨hwhole, fun heq => hsep heq.1.symm, hrest⟩, hend⟩

theorem trimmed_joinWith {p : Char → Bool} {sep : String} {c : Char} (hsep : sep.toList = [c])
    (h : ∀ w ∈ ws, w.toList ≠ [] ∧ Trimmed p w.toList) : Trimmed p (joinWith sep ws).toList := by
  rw [toList_joinWith, hsep]
  exact trimmed_intercalate (forall_mem_map.mpr h)

theorem notMem_joinWith {sep : String} {c x : Char} (hsep : sep.toList = [c]) (hx : x ≠ c)
    (h : ∀ w ∈ ws, x ∉ w.toList) : x ∉ (joinWith sep ws).toList := by
  rw [toList_joinWith, hsep]
  intro hmem
  rcases mem_intercalate hmem with rfl | ⟨part, hpart, hmem⟩
  · exact hx rfl
  · obtain ⟨w, hw, rfl⟩ := mem_map.mp hpart
    exact h w hw hmem

/-- **Texts that are joined with commas are found again,** if they have no free comma and all but the last are closed. -/
theorem split_joinWith (hne : ts ≠ []) (htexts : ∀ t ∈ ts, t ≠ "" ∧ Whole ',' .outside t.toList)
    (hclosed : ∀ t ∈ ts.dropLast, Closed t) : split ',' (joinWith "," ts) = ts := by
  have hcomma : ",".toList = [','] := rfl
  have hseparated : Separated ',' .outside (ts.map String.toList) := by
    rw [separated_outside_iff, ← map_dropLast]
    exact ⟨forall_mem_map.mpr fun t ht => (htexts t ht).2, forall_mem_map.mpr hclosed⟩
  have hsplit : splitFrom ',' .outside (joinWith "," ts).toList = ts.map String.toList := by
    rw [toList_joinWith, hcomma]
    exact splitFrom_intercalate isInert_comma (by simpa using hne) hseparated
  have hsome : ¬((joinWith "," ts).toList.isEmpty || (joinWith "," ts).toList == [',']) = true := by
    -- an empty text has one empty part, and a lone comma has two
    intro hnone
    have hempty : "" ∈ ts := by
      have hmem : [] ∈ ts.map String.toList := by
        rw [← hsplit]
        rcases Bool.or_eq_true_iff.mp hnone with hnil | hlone
        · rw [isEmpty_iff.mp hnil]
          exact mem_singleton_self _
        · rw [beq_iff_eq.mp hlone, splitFrom_sep isInert_comma]
          exact mem_cons_self
      obtain ⟨t, ht, hnil⟩ := mem_map.mp hmem
      rwa [String.toList_eq_nil_iff.mp hnil] at ht
    exact (htexts "" hempty).1 rfl
  rw [split, splitChars, if_neg hsome, hsplit, map_map]
  exact (map_congr_left fun t _ => String.ofList_toList).trans (map_id _)

/-! ## Splitting at any separator -/

section

variable {sep : Char} {text : String} {s : List Char}

/-- The next character is escaped behind an odd number of backslashes, as it is for a cursor. -/
theorem Nesting.escaped_after_outside (s : List Char) : (outside.after s).escaped = oddBackslashes s.reverse := by
  induction s using reverseRecOn with
  | nil => rfl
  | append_singleton s c ih =>
    rw [after_append, after_cons, after_nil, escaped_next, ih, reverse_append, reverse_singleton,
      singleton_append, oddBackslashes_cons]

theorem split_eq_map (hne : text ≠ "") (hlone : text ≠ String.ofList [sep]) :
    split sep text = (splitFrom sep .outside text.toList).map String.ofList := by
  have hsome : (text.toList.isEmpty || text.toList == [sep]) = false := by
    rw [Bool.or_eq_false_iff, isEmpty_eq_false_iff, beq_eq_false_iff_ne]
    refine ⟨fun hnil => hne (String.toList_eq_nil_iff.mp hnil), fun hsep => hlone ?_⟩
    rw [← hsep, String.ofList_toList]
  rw [split, splitChars, hsome, if_neg (by decide)]

/-- A text without free separators is its only part. -/
theorem split_of_whole (hsep : IsInert sep) (hne : text ≠ "") (h : Whole sep .outside text.toList) :
    split sep text = [text] := by
  have hlone : text ≠ String.ofList [sep] := by
    rintro rfl
    rw [String.toList_ofList, whole_cons] at h
    exact h.1 ⟨rfl, rfl, hsep.1⟩
  rw [split_eq_map hne hlone, h, map_singleton, String.ofList_toList]

/-- **Splitting loses nothing and leaves nothing to split.** At a separator that neither escapes nor opens nor closes
anything, a text that is not empty and not just the separator is split into parts that are the text again once they are
joined. Each part that is not empty is its own only part, and each but the last ends outside of strings and parentheses
and not behind an odd number of backslashes. -/
theorem split_is_lossless (hsep : sep ∉ ['\\', '"', '\'', '(', ')']) (hne : text ≠ "") (hlone : text ≠ String.ofList [sep]) :
    joinWith (String.ofList [sep]) (split sep text) = text ∧
      (∀ part ∈ split sep text, part ≠ "" → split sep part = [part]) ∧
      ∀ part ∈ (split sep text).dropLast, (Nesting.outside.after part.toList).quote = none ∧
        (Nesting.outside.after part.toList).depth = 0 ∧ oddBackslashes part.toList.reverse = false := by
  have hinert : IsInert sep := by
    simp only [List.mem_cons, List.not_mem_nil, or_false, not_or] at hsep
    obtain ⟨hbackslash, hdouble, hsingle, hopening, hclosing⟩ := hsep
    exact ⟨by simp [nests, hdouble, hsingle, hopening, hclosing], hbackslash⟩
  have hparts := split_eq_map hne hlone
  obtain ⟨hwhole, hclosed⟩ := separated_outside_iff.mp (separated_splitFrom hinert .outside text.toList)
  have hchars : (split sep text).map String.toList = splitFrom sep .outside text.toList := by
    rw [hparts, List.map_map]
    exact (List.map_congr_left fun part _ => String.toList_ofList).trans (List.map_id _)
  refine ⟨?_, fun part hpart hsome => ?_, fun part hpart => ?_⟩
  · apply String.toList_injective
    rw [toList_joinWith, hchars, String.toList_ofList, intercalate_splitFrom hinert]
  · exact split_of_whole hinert hsome (hwhole _ (mem_splitFrom_of_mem_split hpart))
  · have hmem : part.toList ∈ (splitFrom sep .outside text.toList).dropLast := by
      rw [← hchars, ← List.map_dropLast]
      exact List.mem_map_of_mem hpart
    have houtside := hclosed _ hmem
    rw [← Nesting.escaped_after_outside, houtside]
    exact ⟨rfl, rfl, rfl⟩

theorem split_is_lossless_mixed :
    ',' ∉ ['\\', '"', '\'', '(', ')'] ∧ split ',' "a(b,c),\\,d,'e,f" = ["a(b,c)", "\\,d", "'e,f"] ∧
      joinWith "," ["a(b,c)", "\\,d", "'e,f"] = "a(b,c),\\,d,'e,f" ∧ split ',' "\\,d" = ["\\,d"] := by
  have hsep : ',' ∉ ['\\', '"', '\'', '(', ')'] := by decide
  have hsplit : split ',' "a(b,c),\\,d,'e,f" = ["a(b,c)", "\\,d", "'e,f"] := by decide
  obtain ⟨hjoin, hagain, -⟩ := @split_is_lossless ',' "a(b,c),\\,d,'e,f" hsep (by decide) (by decide)
  rw [hsplit] at hjoin hagain
  exact ⟨hsep, hsplit, hjoin, hagain _ (by simp) (by decide)⟩

end

end Stylesheet.Text
