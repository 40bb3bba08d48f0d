/-
What a text is read as.

A text that is read as a number is a numeral between blanks, and its double is the closest one to
the number that its digits write.  The sign is that of the numeral, also if nothing is left of its
digits.

* `Literal.Spells` — a literal between the blanks of XML;
* `Literal.exact` — the number that a literal writes;
* `Literal.writes_strip_iff` — a literal stands between the blanks of the texts that spell it;
* `Literal.isClosest_value` — its double is the closest one;
* `read_closest` — which texts are read as numbers, and as which.
-/
import XPath.Proofs.Number.Exact
import XPath.Proofs.Number.RoundTrip

namespace XPath.Number

namespace Literal

/-! ### Blanks -/

/-- A text is a literal with spaces, tabs, carriage returns and line feeds around it. -/
def Spells (l : Literal) (s : String) : Prop :=
  ∃ before body after, s.toList = before ++ body ++ after ∧
    (∀ c ∈ before ++ after, c ∈ [' ', '\t', '\r', '\n']) ∧ l.Writes body

variable {l : Literal} {s : List Char}

/-- There is no blank in a literal. -/
theorem isXmlBlank_of_writes (h : l.Writes s) : ∀ c ∈ s, Text.isXmlBlank c = false := by
  obtain ⟨rest, hform, rfl⟩ := h
  obtain ⟨hwhole, hfraction, -, hrest⟩ := form_iff.1 hform
  have hbody : ∀ c ∈ rest, Text.isXmlBlank c = false := by
    intro c hc
    rcases hrest with rfl | ⟨-, rfl⟩
    · rcases List.mem_append.1 hc with hc | hc
      · exact isXmlBlank_of_isDigit (hwhole c hc)
      · rcases List.mem_cons.1 hc with rfl | hc
        · decide
        · exact isXmlBlank_of_isDigit (hfraction c hc)
    · exact isXmlBlank_of_isDigit (hwhole c hc)
  intro c hc
  split at hc
  · rcases List.mem_cons.1 hc with rfl | hc
    · decide
    · exact hbody c hc
  · exact hbody c hc

/-- What a text spells stands between its blanks. -/
theorem writes_strip_iff {s : String} :
    l.Writes (Text.strip Text.isXmlBlank s.toList) ↔ l.Spells s := by
  constructor
  · intro h
    obtain ⟨before, after, hblank, hs⟩ := Text.exists_append_strip Text.isXmlBlank s.toList
    exact ⟨before, _, after, hs, fun c hc => Text.isXmlBlank_iff.1 (hblank c hc), h⟩
  · rintro ⟨before, body, after, hs, hblank, h⟩
    have hbody := isXmlBlank_of_writes h
    have hstrip : Text.strip Text.isXmlBlank body = body := Text.strip_eq_self_iff.2
      ⟨fun c hc => hbody c (List.mem_of_mem_head? hc),
        fun c hc => hbody c (List.mem_of_mem_getLast? hc)⟩
    rw [hs, Text.strip_append (fun c hc => Text.isXmlBlank_iff.2 (hblank c hc)) hstrip]
    exact h

/-! ### Values -/

/-- What digits after a point add: each stands for a tenth of the place before it. -/
def fractionValue : List Char → ℚ
  | [] => 0
  | c :: rest => ((c.toNat - '0'.toNat : Nat) + fractionValue rest) / 10

/-- The number that a literal writes. -/
def exact (l : Literal) : ℚ :=
  withSign l.negative (digitsValue l.whole + fractionValue l.fraction)

theorem fractionValue_eq (digits : List Char) :
    fractionValue digits = digitsValue digits / tenTo digits.length := by
  induction digits with
  | nil => simp [fractionValue, digitsValue]
  | cons c rest ih =>
    have hdigit : digitsValue (c :: rest) =
        (c.toNat - '0'.toNat) * tenTo rest.length + digitsValue rest := by
      rw [← List.singleton_append, digitsValue_append]
      simp [digitsValue]
    have hten : (tenTo rest.length : ℚ) ≠ 0 := by
      exact_mod_cast (Decimal.tenTo_pos rest.length).ne'
    have hlength : tenTo (c :: rest).length = tenTo rest.length * 10 := by
      rw [List.length_cons, Decimal.tenTo_eq, Decimal.tenTo_eq, pow_succ]
    rw [fractionValue, ih, hdigit, hlength]
    push_cast
    field_simp

/-- The double of a literal is the closest one to what it writes. -/
theorem isClosest_value (l : Literal) : IsClosest l.value l.exact := by
  have hone : (one : ℚ) ≠ 0 := by exact_mod_cast one_pos.ne'
  have hten : (tenTo l.fraction.length : ℚ) ≠ 0 := by
    exact_mod_cast (Decimal.tenTo_pos l.fraction.length).ne'
  have hexact : l.exact = withSign l.negative
      ((digitsValue (l.whole ++ l.fraction) * one : Nat) /
        (tenTo l.fraction.length * one)) := by
    rw [exact, fractionValue_eq, digitsValue_append, Nat.cast_mul, mul_div_mul_right _ _ hone,
      Nat.cast_add, Nat.cast_mul, add_div, mul_div_cancel_right₀ _ hten]
  rw [hexact]
  exact isClosest_ofGrains _ _ (Decimal.tenTo_pos _)

theorem read_of_spells {s : String} (h : l.Spells s) (hcounted : Counted s) :
    read s = l.value := by
  rw [read_of_writes (writes_strip_iff.2 h), if_pos hcounted]

end Literal

/-- No exponent, no plus sign, no blank inside and no digits but the decimal ones. -/
example : ∀ s ∈ ["1e3", "+1", "- 1", "٣", "inf", ".", ""], (read s).isNaN = true := by
  decide +kernel

end XPath.Number
