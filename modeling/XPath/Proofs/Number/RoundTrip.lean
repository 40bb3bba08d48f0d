/-
Numbers are read back.

The text of a finite double is a literal with the digits of its shortest decimal, far fewer than can
be counted.  Reading it gives that decimal as a fraction, and the fraction rounds to the double, so
that no number is lost on its way through a text.

* `Literal.chars`, `Literal.writes_chars` — the characters that a literal is written as;
* `Decimal.literal` — the literal that writes a decimal;
* `Decimal.digitsValue_literal` — it is the same fraction;
* `Decimal.length_chars_literal_shortest` — it is short;
* `read_source` — a finite double is read back from its source.
-/
import XPath.Proofs.Number.Acceptance

namespace XPath.Number

/-! ### Literals -/

namespace Literal

/-- A literal with a digit before the point and nothing but digits on both sides. -/
structure Positional (l : Literal) : Prop where
  whole_ne_nil : l.whole ≠ []
  isDigit_whole : ∀ c ∈ l.whole, c.isDigit = true
  isDigit_fraction : ∀ c ∈ l.fraction, c.isDigit = true

theorem positional_zero (negative : Bool) : Positional ⟨negative, ['0'], []⟩ := by
  refine ⟨List.cons_ne_nil _ _, fun c hc => ?_, fun c hc => absurd hc List.not_mem_nil⟩
  rw [List.mem_singleton.1 hc]
  decide

/-- The characters that write a literal; there is no point without a digit after it. -/
def chars (l : Literal) : List Char :=
  (if l.negative then ['-'] else []) ++
    (l.whole ++ if l.fraction.isEmpty then [] else '.' :: l.fraction)

variable {l : Literal}

theorem writes_chars (h : l.Positional) : l.Writes l.chars := by
  obtain ⟨hne, hwhole, hfraction⟩ := h
  refine ⟨l.whole ++ if l.fraction.isEmpty then [] else '.' :: l.fraction, ?_, ?_⟩
  · refine form_iff.2 ⟨hwhole, hfraction, fun hnil => (hne hnil).elim, ?_⟩
    cases hf : l.fraction with
    | nil => exact Or.inr ⟨rfl, List.append_nil _⟩
    | cons c rest => exact Or.inl rfl
  · unfold chars
    cases l.negative <;> rfl

/-- A literal has no blank at its ends. -/
theorem strip_chars (h : l.Positional) : Text.strip Text.isXmlBlank l.chars = l.chars := by
  rw [Text.strip_eq_self_iff]
  obtain ⟨c, rest, hw⟩ := List.exists_cons_of_ne_nil h.whole_ne_nil
  constructor
  · intro d hd
    unfold chars at hd
    rw [hw] at hd
    split at hd
    · obtain rfl : '-' = d := by simpa using hd
      decide
    · obtain rfl : c = d := by simpa using hd
      exact isXmlBlank_of_isDigit (h.isDigit_whole c (by simp [hw]))
  · intro d hd
    apply isXmlBlank_of_isDigit
    unfold chars at hd
    rw [List.getLast?_append_of_ne_nil _ (by simp [hw])] at hd
    split at hd
    · rw [List.append_nil] at hd
      exact h.isDigit_whole d (List.mem_of_getLast? hd)
    · next hf =>
      rw [List.getLast?_append_of_ne_nil _ (List.cons_ne_nil _ _), List.getLast?_cons] at hd
      cases hlast : l.fraction.getLast? with
      | none => exact absurd (List.getLast?_eq_none_iff.1 hlast) (by simpa using hf)
      | some e =>
        rw [hlast] at hd
        obtain rfl : e = d := by simpa using hd
        exact h.isDigit_fraction e (List.mem_of_getLast? hlast)

/-- A literal has the value that its digits and its point give. -/
theorem read_chars (h : l.Positional) (hlength : l.chars.length < 2 ^ 32) :
    read (String.ofList l.chars) = l.value := by
  have hwrites : l.Writes (Text.strip Text.isXmlBlank (String.ofList l.chars).toList) := by
    rw [String.toList_ofList, strip_chars h]
    exact writes_chars h
  rw [read_of_writes hwrites, if_pos (counted_of_length_lt hwrites (by rwa [String.length_ofList]))]

theorem digitsValue_append (a b : List Char) :
    digitsValue (a ++ b) = digitsValue a * tenTo b.length + digitsValue b := by
  show Nat.ofDigitChars 10 (a ++ b) 0 = _
  rw [Nat.ofDigitChars_append, Nat.ofDigitChars_eq_ofDigitChars_zero, mul_comm]
  rfl

theorem digitsValue_zeros (k : Nat) : digitsValue (List.replicate k '0') = 0 :=
  (Nat.ofDigitChars_replicate_zero (b := 10)).trans (Nat.mul_zero _)

end Literal

/-! ### Decimals -/

namespace Decimal

open Literal

theorem digitsValue_digitsOf (n : Nat) : digitsValue (digitsOf n) = n :=
  Nat.ofDigitChars_ten_toDigits

theorem isDigit_digitsOf {n : Nat} : ∀ c ∈ digitsOf n, c.isDigit = true :=
  fun _ => Nat.isDigit_of_mem_toDigits (by decide) (by decide)

theorem isDigit_zeros {k : Nat} : ∀ c ∈ List.replicate k '0', c.isDigit = true := by
  intro c hc
  rw [List.eq_of_mem_replicate hc]
  decide

/-- Only zeros are trimmed. -/
theorem trimZeros_append (digits : List Char) :
    ∃ k, trimZeros digits ++ List.replicate k '0' = digits := by
  have h := congrArg List.reverse
    (List.takeWhile_append_dropWhile (p := (· == '0')) (l := digits.reverse))
  rw [List.reverse_append, List.reverse_reverse] at h
  refine ⟨(digits.reverse.takeWhile (· == '0')).length, ?_⟩
  have hzeros : (digits.reverse.takeWhile (· == '0')).reverse =
      List.replicate (digits.reverse.takeWhile (· == '0')).length '0' := by
    rw [List.eq_replicate_iff]
    refine ⟨List.length_reverse, fun c hc => ?_⟩
    simpa using List.mem_takeWhile_imp (List.mem_reverse.1 hc)
  rw [← hzeros]
  exact h

/-- The digits of a decimal behind enough zeros for one digit before the point. -/
def padded (d : Decimal) : List Char :=
  List.replicate (scale - d.power + 1 - (digitsOf d.digits).length) '0' ++ digitsOf d.digits

/-- The digits before the point. -/
def wholeDigits (d : Decimal) : List Char :=
  d.padded.take (d.padded.length - (scale - d.power))

/-- The digits after the point, with the zeros at their end. -/
def fractionDigits (d : Decimal) : List Char :=
  d.padded.drop (d.padded.length - (scale - d.power))

/-- The literal that writes a decimal, behind a sign. -/
def literal (negative : Bool) (d : Decimal) : Literal :=
  if scale ≤ d.power then
    ⟨negative, digitsOf d.digits ++ List.replicate (d.power - scale) '0', []⟩
  else ⟨negative, d.wholeDigits, trimZeros d.fractionDigits⟩

theorem toList_toText (negative : Bool) (d : Decimal) :
    (if negative then ['-'] else []) ++ d.toText.toList = (d.literal negative).chars := by
  by_cases hle : scale ≤ d.power
  · rw [toText, literal, if_pos hle, if_pos hle, String.toList_ofList]
    simp [chars]
  · rw [toText, literal]
    dsimp only
    rw [if_neg hle, if_neg hle, String.toList_ofList]
    show _ ++ (if (trimZeros d.fractionDigits).isEmpty then d.wholeDigits
        else d.wholeDigits ++ '.' :: trimZeros d.fractionDigits) =
      _ ++ (d.wholeDigits ++ if (trimZeros d.fractionDigits).isEmpty then []
        else '.' :: trimZeros d.fractionDigits)
    congr 1
    split
    · rw [List.append_nil]
    · rfl

theorem places_lt_length_padded (d : Decimal) : scale - d.power < d.padded.length := by
  unfold padded
  rw [List.length_append, List.length_replicate]
  omega

theorem length_fractionDigits (d : Decimal) : d.fractionDigits.length = scale - d.power := by
  have hlen := d.places_lt_length_padded
  rw [fractionDigits, List.length_drop]
  omega

theorem isDigit_padded (d : Decimal) : ∀ c ∈ d.padded, c.isDigit = true := by
  intro c hc
  rcases List.mem_append.1 hc with hc | hc
  · exact isDigit_zeros c hc
  · exact isDigit_digitsOf c hc

theorem digitsValue_padded (d : Decimal) : digitsValue d.padded = d.digits := by
  rw [padded, digitsValue_append, digitsValue_zeros, digitsValue_digitsOf, zero_mul, zero_add]

theorem positional_literal (negative : Bool) (d : Decimal) :
    (d.literal negative).Positional := by
  unfold literal
  split
  · refine ⟨by simp [digitsOf], fun c hc => ?_, by simp⟩
    rcases List.mem_append.1 hc with hc | hc
    · exact isDigit_digitsOf c hc
    · exact isDigit_zeros c hc
  · refine ⟨?_, fun c hc => d.isDigit_padded c (List.mem_of_mem_take hc), fun c hc => ?_⟩
    · have hlen := d.places_lt_length_padded
      rw [wholeDigits, ← List.length_pos_iff, List.length_take]
      omega
    · obtain ⟨k, hk⟩ := trimZeros_append d.fractionDigits
      have hmem := List.mem_append_left (List.replicate k '0') hc
      rw [hk] at hmem
      exact d.isDigit_padded c (List.mem_of_mem_drop hmem)

/-- The digits of the literal over its places are the decimal. -/
theorem digitsValue_literal (negative : Bool) (d : Decimal) :
    digitsValue ((d.literal negative).whole ++ (d.literal negative).fraction) * tenTo scale =
      d.digits * tenTo d.power * tenTo (d.literal negative).fraction.length := by
  unfold literal
  split
  · next hle =>
    obtain ⟨k, hk⟩ := Nat.exists_eq_add_of_le hle
    rw [hk, List.append_nil, digitsValue_append, digitsValue_zeros, digitsValue_digitsOf,
      List.length_replicate, Nat.add_sub_cancel_left, List.length_nil, tenTo_eq, tenTo_eq,
      tenTo_eq, tenTo_eq, pow_add, pow_zero]
    ring
  · next hlt =>
    obtain ⟨k, hk⟩ := trimZeros_append d.fractionDigits
    have hsum : scale = d.power + (trimZeros d.fractionDigits).length + k := by
      have hlen := congrArg List.length hk
      rw [List.length_append, List.length_replicate, length_fractionDigits] at hlen
      omega
    -- The zeros that are trimmed are places that are not counted.
    have hvalue : digitsValue (d.wholeDigits ++ trimZeros d.fractionDigits) * tenTo k =
        d.digits := by
      have hpadded : d.wholeDigits ++ trimZeros d.fractionDigits ++ List.replicate k '0' =
          d.padded := by
        rw [List.append_assoc, hk]
        exact List.take_append_drop _ _
      have h := congrArg digitsValue hpadded
      rw [digitsValue_append _ (List.replicate k '0'), digitsValue_zeros, List.length_replicate,
        add_zero, digitsValue_padded] at h
      exact h
    rw [hsum, ← hvalue, tenTo_eq, tenTo_eq, tenTo_eq, tenTo_eq, pow_add, pow_add]
    ring

end Decimal

/-! ### Lengths -/

namespace Decimal

open Literal

variable {m s : Nat}

theorem length_chars_literal_le (negative : Bool) (d : Decimal) :
    (d.literal negative).chars.length ≤ (digitsOf d.digits).length + d.power + scale + 3 := by
  have hsign : (if (d.literal negative).negative then ['-'] else []).length ≤ 1 := by
    split <;> decide
  have hpoint : ∀ fraction : List Char,
      (if fraction.isEmpty then [] else '.' :: fraction).length ≤ fraction.length + 1 := by
    intro fraction
    split
    · exact Nat.zero_le _
    · exact Nat.le_refl _
  rw [chars, List.length_append, List.length_append]
  have := hpoint (d.literal negative).fraction
  suffices (d.literal negative).whole.length + (d.literal negative).fraction.length ≤
      (digitsOf d.digits).length + d.power + scale + 1 by omega
  unfold literal
  split
  · rw [List.length_append, List.length_replicate, List.length_nil]
    omega
  · obtain ⟨k, hk⟩ := trimZeros_append d.fractionDigits
    have hfraction := congrArg List.length hk
    rw [List.length_append] at hfraction
    have hpadded : d.wholeDigits.length + d.fractionDigits.length = d.padded.length := by
      rw [← List.length_append]
      exact congrArg List.length (List.take_append_drop _ _)
    have hlength : d.padded.length ≤ scale + 1 + (digitsOf d.digits).length := by
      rw [padded, List.length_append, List.length_replicate]
      omega
    dsimp only
    omega

theorem length_digitsOf_add_power_le {d : Decimal} {k : Nat} (hpos : 0 < d.digits)
    (h : d.digits * tenTo d.power < 10 ^ k) : (digitsOf d.digits).length + d.power ≤ k := by
  rw [tenTo_eq] at h
  have hpower : d.power < k := by
    rw [← Nat.pow_lt_pow_iff_right (show 1 < 10 by decide)]
    exact (Nat.le_mul_of_pos_left _ hpos).trans_lt h
  obtain ⟨j, rfl⟩ := Nat.exists_eq_add_of_lt hpower
  have hdigits : d.digits < 10 ^ (j + 1) := by
    rw [Nat.add_assoc, Nat.pow_add, Nat.mul_comm] at h
    exact Nat.lt_of_mul_lt_mul_left h
  have := (Nat.length_toDigits_le_iff (by decide) (Nat.succ_pos j)).2 hdigits
  rw [digitsOf]
  omega

/-- What a double is written with is a number of moderate size. -/
theorem shortest_lt (hm : 0 < m) (hlt : m < 2 ^ 53) (hs : s < 2047) :
    0 < (shortest m s).digits ∧
      (shortest m s).digits * tenTo (shortest m s).power < 10 ^ 1000 := by
  have hsignificand : 4 * m + 2 ≤ 2 ^ 56 := by omega
  obtain ⟨⟨hlow, hhigh⟩, -⟩ := Neighbourhood.contains_iff.1 (contains_shortest (s := s) hm)
  generalize (shortest m s).digits = digits at hlow hhigh ⊢
  generalize tenTo (shortest m s).power = unit at hlow hhigh ⊢
  constructor
  · refine Nat.pos_of_ne_zero fun hzero => ?_
    rw [hzero, Nat.zero_mul, Nat.zero_mul] at hlow
    have hpos : 0 < (Neighbourhood.of m s).low * tenTo scale := by
      refine Nat.mul_pos (Nat.mul_pos ?_ (Nat.pow_pos (by decide))) (tenTo_pos _)
      split <;> omega
    omega
  · have hquarters : 0 < quarters := Nat.mul_pos (by decide) one_pos
    calc digits * unit ≤ digits * unit * quarters := Nat.le_mul_of_pos_right _ hquarters
      _ ≤ (4 * m + 2) * 2 ^ s * tenTo scale := hhigh
      _ ≤ 2 ^ 56 * 2 ^ 2047 * tenTo scale :=
        Nat.mul_le_mul_right _ (Nat.mul_le_mul hsignificand
          (Nat.pow_le_pow_right (by decide) hs.le))
      _ < 10 ^ 1000 := by decide +kernel

theorem length_chars_literal_shortest (negative : Bool) (hm : 0 < m) (hlt : m < 2 ^ 53)
    (hs : s < 2047) : ((shortest m s).literal negative).chars.length < 2 ^ 32 := by
  obtain ⟨hpos, hbound⟩ := shortest_lt hm hlt hs
  have := length_chars_literal_le negative (shortest m s)
  have := length_digitsOf_add_power_le hpos hbound
  rw [show scale = 340 from rfl] at *
  omega

end Decimal

/-! ### Reading back -/

/-- The digits of a finite double are read as the double. -/
theorem read_digitText (negative : Bool) {m s : Nat} (hm : m < 2 ^ 53) (hs : s ≠ 0 → 2 ^ 52 ≤ m)
    (hlt : s * 2 ^ 52 + m < 2047 * 2 ^ 52) :
    read (String.ofList ((if negative then ['-'] else []) ++ (digitText m s).toList)) =
      ofMagnitude negative (s * 2 ^ 52 + m) := by
  by_cases h0 : m = 0
  · subst h0
    obtain rfl : s = 0 := by
      by_contra h
      exact absurd (hs h) (by omega)
    have hzero : nearestMagnitude (Literal.digitsValue ['0'] * one) (tenTo 0) = 0 := by
      rw [show Literal.digitsValue ['0'] = 0 from rfl, zero_mul]
      decide +kernel
    rw [digitText, if_pos rfl]
    have hshort : (Literal.chars ⟨negative, ['0'], []⟩).length < 2 ^ 32 := by
      cases negative <;> decide
    refine (Literal.read_chars (Literal.positional_zero negative) hshort).trans ?_
    rw [Literal.value, ofRatio, ofGrains]
    exact congrArg _ hzero
  · have hpos : 0 < m := Nat.pos_of_ne_zero h0
    have hsign : ((Decimal.shortest m s).literal negative).negative = negative := by
      unfold Decimal.literal
      split <;> rfl
    have hvalue := Decimal.digitsValue_literal negative (Decimal.shortest m s)
    have hnearest := nearestMagnitude_congr
      (Decimal.tenTo_pos ((Decimal.shortest m s).literal negative).fraction.length)
      (Decimal.tenTo_pos Decimal.scale)
      (show _ * one * _ = (Decimal.shortest m s).digits * tenTo (Decimal.shortest m s).power *
        one * _ by rw [mul_right_comm, hvalue, mul_right_comm])
    rw [digitText, if_neg h0, Decimal.toList_toText,
      Literal.read_chars (Decimal.positional_literal _ _)
        (Decimal.length_chars_literal_shortest negative hpos hm (by omega)),
      Literal.value, hsign, ofRatio, ofGrains, hnearest, Decimal.nearest_shortest hpos hm hs hlt]

/-- A finite double is read back from its source. -/
theorem read_source {x : Float} (h : x.isFinite = true) : read (source x) = x := by
  obtain ⟨negative, m, s, hx⟩ := isFinite_iff.1 h
  obtain ⟨hm, hs⟩ := canonical_parts hx
  have hread := read_digitText negative hm hs (magnitude_lt hx)
  rw [ofMagnitude_of_parts hx] at hread
  have htext : source x =
      String.ofList ((if negative then ['-'] else []) ++ (digitText m s).toList) := by
    rw [source, hx, ← String.toList_inj, String.toList_ofList]
    cases negative <;> simp
  rw [htext, hread]

end XPath.Number
