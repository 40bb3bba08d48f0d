/-
The words of a text.

A blank ends a word, so the words of two texts with a blank between them are those of the one and
then those of the other.  From this the words are known without the pass that finds them: they are
the runs of characters that are not blank and that cannot be made longer.

* `runs_append_cons`, `words_append_blank` — a blank separates words;
* `words_intercalate` — the words of texts that are joined by a blank;
* `mem_words_iff` — the words are the longest runs without blanks.
-/
import Mathlib
import XPath.Text.Blank

namespace XPath.Text

section Runs

variable {blank : Char → Bool} {c : Char} {s t w : List Char}

/-- A run of characters of `s` that are not blank, with a blank or nothing on either side. -/
def IsRun (blank : Char → Bool) (w s : List Char) : Prop :=
  w ≠ [] ∧ (∀ c ∈ w, blank c = false) ∧ ∃ before after, s = before ++ w ++ after ∧
    (∀ c ∈ before.getLast?, blank c = true) ∧ ∀ c ∈ after.head?, blank c = true

theorem splitRuns_append_cons (hc : blank c = true) :
    splitRuns blank (s ++ c :: t) =
      ((splitRuns blank s).1, (splitRuns blank s).2 ++ runs blank t) := by
  induction s with
  | nil => simp [splitRuns, runs, hc]
  | cons d s ih =>
    simp only [List.cons_append, splitRuns, ih]
    cases blank d <;> cases (splitRuns blank s).1 <;> simp

/-- A blank separates the runs before it from those after it. -/
theorem runs_append_cons (hc : blank c = true) :
    runs blank (s ++ c :: t) = runs blank s ++ runs blank t := by
  rw [runs, splitRuns_append_cons hc]
  simp only [runs.eq_def blank s]
  cases (splitRuns blank s).1 <;> rfl

theorem splitRuns_of_forall (h : ∀ c ∈ w, blank c = false) : splitRuns blank w = (w, []) := by
  induction w with
  | nil => rfl
  | cons d w ih =>
    obtain ⟨hd, hw⟩ := List.forall_mem_cons.1 h
    simp [splitRuns, ih hw, hd]

/-- Without blanks there is one run. -/
theorem runs_of_forall (hne : w ≠ []) (h : ∀ c ∈ w, blank c = false) : runs blank w = [w] := by
  simp [runs, splitRuns_of_forall h, hne]

theorem mem_runs_of_isRun (h : IsRun blank w s) : w ∈ runs blank s := by
  obtain ⟨hne, hw, before, after, rfl, hbefore, hafter⟩ := h
  -- What is on either side is separated by a blank, if there is something.
  have hright : w ∈ runs blank (w ++ after) := by
    cases after with
    | nil => simp [runs_of_forall hne hw]
    | cons c after =>
      rw [runs_append_cons (hafter c rfl), runs_of_forall hne hw]
      exact List.mem_append_left _ (List.mem_singleton_self w)
  obtain rfl | ⟨before, c, rfl⟩ := List.eq_nil_or_concat' before
  · exact hright
  · rw [List.append_assoc, List.append_assoc, List.singleton_append,
      runs_append_cons (hbefore c (by simp))]
    exact List.mem_append_right _ hright

theorem IsRun.append_cons (hc : blank c = true) (h : IsRun blank w t) :
    IsRun blank w (s ++ c :: t) := by
  obtain ⟨hne, hw, before, after, rfl, hbefore, hafter⟩ := h
  refine ⟨hne, hw, s ++ c :: before, after, by simp, ?_, hafter⟩
  obtain rfl | ⟨before, d, rfl⟩ := List.eq_nil_or_concat' before
  · simpa using hc
  · rwa [← List.cons_append, ← List.append_assoc, List.getLast?_concat, ← List.getLast?_concat]

theorem isRun_of_mem_runs (h : w ∈ runs blank s) : IsRun blank w s := by
  -- The text up to its first blank is a run or empty, and what comes after the blank is shorter.
  induction hn : s.length using Nat.strongRecOn generalizing s with
  | ind n ih =>
    have hfirst : ∀ c ∈ s.takeWhile (!blank ·), blank c = false := fun c hc => by
      simpa using List.mem_takeWhile_imp hc
    have hsplit := s.takeWhile_append_dropWhile (p := (!blank ·))
    generalize s.takeWhile (!blank ·) = first at hfirst hsplit
    have hmem : w ∈ runs blank first → w = first ∧ first ≠ [] := fun h => by
      rcases eq_or_ne first [] with rfl | hne
      · cases h
      · rw [runs_of_forall hne hfirst, List.mem_singleton] at h
        exact ⟨h, hne⟩
    cases hrest : s.dropWhile (!blank ·) with
    | nil =>
      rw [hrest, List.append_nil] at hsplit
      obtain ⟨rfl, hne⟩ := hmem (hsplit ▸ h)
      exact ⟨hne, hfirst, [], [], by simpa using hsplit.symm, by simp, by simp⟩
    | cons c rest =>
      have hc : blank c = true := by
        simpa [hrest] using List.head?_dropWhile_not (!blank ·) s
      rw [hrest] at hsplit
      rw [← hsplit, runs_append_cons hc, List.mem_append] at h
      rw [← hsplit]
      rcases h with h | h
      · obtain ⟨rfl, hne⟩ := hmem h
        exact ⟨hne, hfirst, [], c :: rest, rfl, by simp, by simpa using hc⟩
      · refine (ih rest.length ?_ h rfl).append_cons hc
        rw [← hn, ← hsplit, List.length_append, List.length_cons]
        omega

end Runs

section Words

variable {blank : Char → Bool} {s t w : String}

/-- The words are the longest runs without blanks. -/
theorem mem_words_iff : w ∈ words blank s ↔ IsRun blank w.toList s.toList := by
  rw [words, List.mem_map]
  constructor
  · rintro ⟨run, hrun, rfl⟩
    rw [String.toList_ofList]
    exact isRun_of_mem_runs hrun
  · exact fun h => ⟨w.toList, mem_runs_of_isRun h, String.ofList_toList⟩

/-- The words of two texts that are joined by a blank are the words of both. -/
theorem words_append_blank (hspace : blank ' ' = true) :
    words blank (s ++ " " ++ t) = words blank s ++ words blank t := by
  simp only [words, String.toList_append, List.append_assoc]
  show (runs blank (s.toList ++ ' ' :: t.toList)).map _ = _
  rw [runs_append_cons hspace, List.map_append]

theorem words_intercalate (hspace : blank ' ' = true) (texts : List String) :
    words blank (" ".intercalate texts) = texts.flatMap (words blank) := by
  induction texts with
  | nil => rfl
  | cons s texts ih =>
    cases texts with
    | nil => simp
    | cons t texts =>
      rw [String.intercalate_cons_cons, words_append_blank hspace, ih]
      rfl

end Words

end XPath.Text
