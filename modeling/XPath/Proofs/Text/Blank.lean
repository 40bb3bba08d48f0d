/-
Texts and the blanks at their ends.

* `strip_eq_self_iff` — stripping leaves a list alone if its ends are not blank;
* `strip_eq_nil_iff` — and leaves nothing of it if it is all blank;
* `exists_append_strip`, `strip_append` — what is stripped are the blanks around;
* `trim_eq_self_iff` — the same of a text.
-/
import Mathlib
import XPath.Text.Blank

namespace XPath.Text

/-- There are four blanks in XML. -/
theorem isXmlBlank_iff {c : Char} : isXmlBlank c = true ↔ c ∈ [' ', '\t', '\r', '\n'] := by
  simp only [isXmlBlank, Bool.or_eq_true, beq_iff_eq, List.mem_cons, List.not_mem_nil, or_false,
    or_assoc]

section Strip

variable {blank : Char → Bool} {s : List Char}

theorem dropWhile_eq_self_iff_head? :
    s.dropWhile blank = s ↔ ∀ c ∈ s.head?, blank c = false := by
  cases s with
  | nil => simp
  | cons c rest => simp [List.dropWhile_eq_self_iff]

/-- Stripping leaves a list alone if its ends are not blank. -/
theorem strip_eq_self_iff :
    strip blank s = s ↔
      (∀ c ∈ s.head?, blank c = false) ∧ ∀ c ∈ s.getLast?, blank c = false := by
  rw [← dropWhile_eq_self_iff_head?, ← List.head?_reverse, ← dropWhile_eq_self_iff_head?]
  constructor
  · intro h
    have hlen := congrArg List.length h
    unfold strip at hlen
    rw [List.length_reverse] at hlen
    have h1 := ((s.dropWhile blank).reverse.dropWhile_sublist blank).length_le
    have h2 := (s.dropWhile_sublist blank).length_le
    rw [List.length_reverse] at h1
    have hfirst : s.dropWhile blank = s := (s.dropWhile_sublist blank).eq_of_length (by omega)
    refine ⟨hfirst, ?_⟩
    unfold strip at h
    rw [hfirst] at h
    rw [← List.reverse_inj, h, List.reverse_reverse]
  · rintro ⟨hfirst, hlast⟩
    unfold strip
    rw [hfirst, hlast, List.reverse_reverse]

/-- Stripping leaves nothing of a list of blanks, and something of every other list. -/
theorem strip_eq_nil_iff : strip blank s = [] ↔ ∀ c ∈ s, blank c = true := by
  unfold strip
  rw [List.reverse_eq_nil_iff, List.dropWhile_eq_nil_iff]
  constructor
  · intro h
    have hrest : s.dropWhile blank = [] := by
      cases hs : s.dropWhile blank with
      | nil => rfl
      | cons c rest =>
        have hc : blank c = false := by simpa [hs] using List.head?_dropWhile_not blank s
        have := h c (by simp [hs])
        rw [hc] at this
        cases this
    exact List.dropWhile_eq_nil_iff.1 hrest
  · intro h c hc
    rw [List.mem_reverse, List.dropWhile_eq_nil_iff.2 h] at hc
    cases hc

/-- What stripping leaves ends in a character that is not blank. -/
theorem exists_mem_strip (h : strip blank s ≠ []) : ∃ c ∈ strip blank s, blank c = false := by
  unfold strip at h ⊢
  cases hs : (s.dropWhile blank).reverse.dropWhile blank with
  | nil => exact (h (by rw [hs]; rfl)).elim
  | cons c rest =>
    have hc := List.head?_dropWhile_not blank (s.dropWhile blank).reverse
    exact ⟨c, by simp, by simpa [hs] using hc⟩

/-- Only blanks at the ends are stripped. -/
theorem exists_append_strip (blank : Char → Bool) (s : List Char) :
    ∃ before after, (∀ c ∈ before ++ after, blank c = true) ∧
      s = before ++ strip blank s ++ after := by
  refine ⟨s.takeWhile blank, ((s.dropWhile blank).reverse.takeWhile blank).reverse, ?_, ?_⟩
  · intro c hc
    rw [List.mem_append, List.mem_reverse] at hc
    exact hc.elim List.mem_takeWhile_imp List.mem_takeWhile_imp
  · rw [strip, List.append_assoc, ← List.reverse_append, List.takeWhile_append_dropWhile,
      List.reverse_reverse, List.takeWhile_append_dropWhile]

/-- All blanks around a list that has none at its ends are stripped. -/
theorem strip_append {before after : List Char} (hblank : ∀ c ∈ before ++ after, blank c = true)
    (h : strip blank s = s) : strip blank (before ++ s ++ after) = s := by
  have hbefore : ∀ c ∈ before, blank c = true := fun c hc => hblank c (List.mem_append_left _ hc)
  have hafter : ∀ c ∈ after, blank c = true := fun c hc => hblank c (List.mem_append_right _ hc)
  rw [strip, List.append_assoc, List.dropWhile_append_of_pos hbefore]
  cases hs : s with
  | nil =>
    rw [List.nil_append, List.dropWhile_eq_nil_iff.2 hafter]
    rfl
  | cons c rest =>
    have hfirst := (strip_eq_self_iff.1 h).1
    have hhead : (s ++ after).dropWhile blank = s ++ after := by
      rw [dropWhile_eq_self_iff_head?, hs]
      rw [hs] at hfirst
      exact hfirst
    have hlast : s.reverse.dropWhile blank = s.reverse := by
      rw [dropWhile_eq_self_iff_head?, List.head?_reverse]
      exact (strip_eq_self_iff.1 h).2
    rw [← hs, hhead, List.reverse_append, List.dropWhile_append_of_pos, hlast, List.reverse_reverse]
    exact fun c hc => hafter c (List.mem_reverse.1 hc)

end Strip

/-- A text is trimmed if it neither starts nor ends with white space. -/
theorem trim_eq_self_iff {s : String} :
    trim s = s ↔
      (∀ c ∈ s.toList.head?, isBlank c = false) ∧ ∀ c ∈ s.toList.getLast?, isBlank c = false := by
  rw [← strip_eq_self_iff, trim, ← String.toList_inj, String.toList_ofList]

end XPath.Text
