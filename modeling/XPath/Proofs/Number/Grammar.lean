/-
The texts of the grammar.

A numeral is an optional minus sign and digits with at most one point among or around them.  Its
digits stand in one of four forms around the point, and the form says which literal it is.

* `IsNumeral` — an optional minus sign and digits with at most one point;
* `Literal.Form`, `Literal.Writes` — the texts that a literal is written as;
* `Literal.split?_eq_some_iff` — a literal is all that is taken off the front of such a text;
* `Literal.exists_writes_iff` — what literals are written as are the numerals.
-/
import Mathlib
import XPath.Number.Text

namespace XPath.Number

/-- Digits with at most one point among or around them, and no less than one digit. -/
def IsUnsigned (s : List Char) : Prop :=
  ∃ whole fraction, (∀ c ∈ whole ++ fraction, c.isDigit = true) ∧ whole ++ fraction ≠ [] ∧
    (s = whole ++ fraction ∨ s = whole ++ '.' :: fraction)

/-- A numeral: an optional minus sign, and digits with at most one point. -/
def IsNumeral (s : List Char) : Prop := ∃ rest, IsUnsigned rest ∧ (s = rest ∨ s = '-' :: rest)

/-! ### The grammar -/

/-- A run of decimal digits. -/
def IsDigits (s : List Char) : Prop := s ≠ [] ∧ ∀ c ∈ s, c.isDigit = true

namespace Literal

/-- The four ways to write digits with their point. -/
inductive Form : Literal → List Char → Prop
  | whole {negative : Bool} {digits : List Char} (h : IsDigits digits) :
    Form ⟨negative, digits, []⟩ digits
  | wholePoint {negative : Bool} {digits : List Char} (h : IsDigits digits) :
    Form ⟨negative, digits, []⟩ (digits ++ ['.'])
  | wholeFraction {negative : Bool} {whole fraction : List Char} (h : IsDigits whole)
    (h' : IsDigits fraction) : Form ⟨negative, whole, fraction⟩ (whole ++ '.' :: fraction)
  | fraction {negative : Bool} {digits : List Char} (h : IsDigits digits) :
    Form ⟨negative, [], digits⟩ ('.' :: digits)

/-- A literal is written with an optional minus sign in front. -/
def Writes (l : Literal) (s : List Char) : Prop :=
  ∃ rest, l.Form rest ∧ s = if l.negative then '-' :: rest else rest

variable {negative : Bool} {l : Literal} {s : List Char}

/-- The point may be left out if nothing is behind it. -/
theorem form_iff :
    l.Form s ↔ (∀ c ∈ l.whole, c.isDigit = true) ∧ (∀ c ∈ l.fraction, c.isDigit = true) ∧
      (l.whole = [] → l.fraction ≠ []) ∧
      (s = l.whole ++ '.' :: l.fraction ∨ l.fraction = [] ∧ s = l.whole) := by
  constructor
  · rintro (⟨hne, hd⟩ | ⟨hne, hd⟩ | ⟨⟨hne, hw⟩, -, hf⟩ | ⟨hne, hd⟩)
    · exact ⟨hd, by simp, fun h => (hne h).elim, Or.inr ⟨rfl, rfl⟩⟩
    · exact ⟨hd, by simp, fun h => (hne h).elim, Or.inl rfl⟩
    · exact ⟨hw, hf, fun h => (hne h).elim, Or.inl rfl⟩
    · exact ⟨by simp, hd, fun _ => hne, Or.inl rfl⟩
  · obtain ⟨negative, whole, fraction⟩ := l
    dsimp only
    rintro ⟨hw, hf, hne, rfl | ⟨rfl, rfl⟩⟩
    · rcases Decidable.em (whole = []) with rfl | hwhole
      · exact .fraction ⟨hne rfl, hf⟩
      · rcases Decidable.em (fraction = []) with rfl | hfraction
        · exact .wholePoint ⟨hwhole, hw⟩
        · exact .wholeFraction ⟨hwhole, hw⟩ ⟨hfraction, hf⟩
    · exact .whole ⟨fun h => hne h rfl, hw⟩

/-- A literal is taken off the front of a text and nothing is left if the text is one of its
forms. -/
theorem split?_eq_some_iff :
    split? negative s = some (l, []) ↔ l.negative = negative ∧ l.Form s := by
  have hpoint : Char.isDigit '.' = false := by decide
  rw [form_iff]
  constructor
  · intro h
    have hwhole : ∀ c ∈ s.takeWhile Char.isDigit, c.isDigit = true :=
      fun c hc => List.mem_takeWhile_imp hc
    have hsplit := s.takeWhile_append_dropWhile (p := Char.isDigit)
    unfold split? at h
    dsimp only at h
    generalize s.takeWhile Char.isDigit = whole at h hwhole hsplit
    generalize s.dropWhile Char.isDigit = rest at h hsplit
    split at h
    · next fraction =>
      split at h
      · cases h
      · next hne =>
        obtain ⟨rfl, hrest⟩ := Prod.mk.inj (Option.some.inj h)
        have hfraction : ∀ c ∈ fraction, c.isDigit = true := List.dropWhile_eq_nil_iff.1 hrest
        dsimp only at hne ⊢
        rw [List.takeWhile_eq_self_iff.2 hfraction] at hne ⊢
        exact ⟨rfl, hwhole, hfraction, by simpa using hne, Or.inl hsplit.symm⟩
    · split at h
      · cases h
      · next hne =>
        obtain ⟨rfl, rfl⟩ := Prod.mk.inj (Option.some.inj h)
        dsimp only at hne ⊢
        rw [List.append_nil] at hsplit
        exact ⟨rfl, hwhole, by simp, by simpa using hne, Or.inr ⟨rfl, hsplit.symm⟩⟩
  · obtain ⟨negative', whole, fraction⟩ := l
    dsimp only
    rintro ⟨rfl, hw, hf, hne, rfl | ⟨rfl, rfl⟩⟩
    · have htake : fraction.takeWhile Char.isDigit = fraction := List.takeWhile_eq_self_iff.2 hf
      have hdrop : fraction.dropWhile Char.isDigit = [] := List.dropWhile_eq_nil_iff.2 hf
      unfold split?
      rw [List.takeWhile_append_of_pos hw, List.dropWhile_append_of_pos hw]
      simpa [hpoint, htake, hdrop, List.isEmpty_iff] using hne
    · have htake : s.takeWhile Char.isDigit = s := List.takeWhile_eq_self_iff.2 hw
      have hdrop : s.dropWhile Char.isDigit = [] := List.dropWhile_eq_nil_iff.2 hw
      unfold split?
      rw [htake, hdrop]
      simpa using hne

/-- Digits with at most one point have one of the forms, behind either sign. -/
theorem exists_form (h : IsUnsigned s) (negative : Bool) :
    ∃ l : Literal, l.negative = negative ∧ l.Form s := by
  obtain ⟨whole, fraction, hdigits, hne, rfl | rfl⟩ := h
  · exact ⟨⟨negative, whole ++ fraction, []⟩, rfl, .whole ⟨hne, hdigits⟩⟩
  · refine ⟨⟨negative, whole, fraction⟩, rfl, form_iff.2 ⟨?_, ?_, by simpa using hne, Or.inl rfl⟩⟩
    · exact fun c hc => hdigits c (List.mem_append_left _ hc)
    · exact fun c hc => hdigits c (List.mem_append_right _ hc)

theorem isUnsigned_of_form (h : l.Form s) : IsUnsigned s := by
  obtain ⟨hwhole, hfraction, hne, hs⟩ := form_iff.1 h
  refine ⟨l.whole, l.fraction, fun c hc => ?_, by simpa using hne, ?_⟩
  · exact (List.mem_append.1 hc).elim (hwhole c) (hfraction c)
  · rcases hs with hs | ⟨hnil, hs⟩
    · exact Or.inr hs
    · exact Or.inl (by rw [hs, hnil, List.append_nil])

/-- What literals are written as are the numerals. -/
theorem exists_writes_iff : (∃ l : Literal, l.Writes s) ↔ IsNumeral s := by
  constructor
  · rintro ⟨l, rest, hform, hs⟩
    refine ⟨rest, isUnsigned_of_form hform, ?_⟩
    cases hneg : l.negative with
    | true => exact Or.inr (by rw [hs, if_pos hneg])
    | false => exact Or.inl (by rw [hs, hneg, if_neg Bool.false_ne_true])
  · rintro ⟨rest, hrest, rfl | rfl⟩
    · obtain ⟨l, hneg, hform⟩ := exists_form hrest false
      exact ⟨l, _, hform, by rw [hneg, if_neg Bool.false_ne_true]⟩
    · obtain ⟨l, hneg, hform⟩ := exists_form hrest true
      exact ⟨l, _, hform, by rw [if_pos hneg]⟩

end Literal

end XPath.Number
