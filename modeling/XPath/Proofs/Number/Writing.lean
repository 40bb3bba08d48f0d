/-
What a number is written as.

The text of a finite double is a numeral, and the double that it is read as is the one that was
written, but for negative zero, which is written without its sign.  So what is written, read and
written again is the same text.

* `isNumeral_write` — the text of a finite double is a numeral;
* `read_write_eq` — a finite double is read back from its text, but for the sign of zero;
* `write_read_write` — writing it once more gives the same text.
-/
import XPath.Proofs.Number.RoundTrip
import XPath.Proofs.Number.Whole

namespace XPath.Number

/-! ### Numerals -/

theorem isNumeral_chars {l : Literal} (h : l.Positional) : IsNumeral l.chars :=
  Literal.exists_writes_iff.1 ⟨l, Literal.writes_chars h⟩

/-- The digits of a double are a numeral, with a minus sign or without. -/
theorem isNumeral_digitText (negative : Bool) (m s : Nat) :
    IsNumeral ((if negative then ['-'] else []) ++ (digitText m s).toList) := by
  by_cases h0 : m = 0
  · rw [digitText, if_pos h0]
    exact isNumeral_chars (Literal.positional_zero negative)
  · rw [digitText, if_neg h0, Decimal.toList_toText]
    exact isNumeral_chars (Decimal.positional_literal _ _)

/-! ### Writing and reading -/

section Write

variable {x : Float} {negative : Bool} {m s : Nat}

/-- The text of a finite double: zero has no sign. -/
theorem toList_write (hx : parts x = .finite negative m s) :
    (write x).toList = (if negative && m != 0 then ['-'] else []) ++ (digitText m s).toList := by
  rw [write, hx]
  dsimp only
  split
  · rw [String.toList_append]
    rfl
  · rfl

theorem isNumeral_write (h : x.isFinite = true) : IsNumeral (write x).toList := by
  obtain ⟨negative, m, s, hx⟩ := isFinite_iff.1 h
  rw [toList_write hx]
  exact isNumeral_digitText _ m s

theorem beq_zero_eq (hx : parts x = .finite negative m s) : (x == 0) = (m == 0) := by
  rw [Bool.eq_iff_iff, beq_iff hx parts_zero, beq_iff_eq]
  cases negative <;> simp [signedGrains]

/-- A finite double is read back from its text, but zero loses its sign. -/
theorem read_write_eq (h : x.isFinite = true) : read (write x) = if x == 0 then 0 else x := by
  obtain ⟨negative, m, s, hx⟩ := isFinite_iff.1 h
  obtain ⟨hm, hs⟩ := canonical_parts hx
  have hread := read_digitText (negative && m != 0) hm hs (magnitude_lt hx)
  rw [← toList_write hx, String.ofList_toList] at hread
  rw [hread, beq_zero_eq hx]
  by_cases h0 : m = 0
  · subst h0
    obtain rfl : s = 0 := by
      by_contra hne
      exact absurd (hs hne) (by decide)
    rw [bne_self_eq_false, Bool.and_false, beq_self_eq_true, if_pos rfl]
    exact ofMagnitude_of_parts parts_zero
  · rw [bne_iff_ne.2 h0, Bool.and_true, beq_false_of_ne h0, if_neg Bool.false_ne_true,
      ofMagnitude_of_parts hx]

/-- Both zeros have one text. -/
theorem write_of_beq_zero (h : x.isFinite = true) (h0 : (x == 0) = true) : write x = write 0 := by
  obtain ⟨negative, m, s, hx⟩ := isFinite_iff.1 h
  rw [beq_zero_eq hx, beq_iff_eq] at h0
  rw [← String.toList_inj, toList_write hx, toList_write parts_zero, h0, bne_self_eq_false,
    Bool.and_false, Bool.and_false, digitText, digitText, if_pos rfl, if_pos rfl]

theorem write_read_write (h : x.isFinite = true) : write (read (write x)) = write x := by
  rw [read_write_eq h]
  split
  · next h0 => exact (write_of_beq_zero h h0).symm
  · rfl

end Write

/-- A finite double is written as a numeral, which is read as the double again, without the sign of
zero, so that it is written as the same text. -/
theorem read_write {x : Float} (h : x.isFinite = true) :
    IsNumeral (write x).toList ∧ (read (write x)).isNaN = false ∧
      read (write x) = (if x == 0 then 0 else x) ∧ write (read (write x)) = write x := by
  refine ⟨isNumeral_write h, ?_, read_write_eq h, write_read_write h⟩
  rw [read_write_eq h]
  split
  · exact isNaN_of_isFinite isFinite_zero
  · exact isNaN_of_isFinite h

theorem read_write_tenth :
    (-0.1 : Float).isFinite = true ∧ write (-0.1) = "-0.1" ∧ read (write (-0.1)) = -0.1 := by
  obtain ⟨-, -, hread, -⟩ := read_write (x := -0.1) rfl
  exact ⟨rfl, by decide +kernel, hread⟩

end XPath.Number
