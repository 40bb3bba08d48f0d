/-
The double closest to a fraction.

A fraction of grains is a whole number of steps, a step being the distance of two doubles where the
fraction lies, and a rest that decides which end of its step is closer.  So what rounds to a double
is exactly what its neighbourhood says, and the shortest decimal of a double lies in there.

* `ofMagnitude_of_parts` — a finite double is put together from its parts;
* `nearestMagnitude_steps` — rounding decides by the rest;
* `nearestMagnitude_congr` — equal fractions are rounded to one double;
* `Neighbourhood.nearest_of_contains` — what lies in the neighbourhood of a double rounds to it;
* `contains_shortest` — the shortest decimal of a double lies in its neighbourhood;
* `isNaN_ofGrains` — fractions are not rounded to NaN, because rounding stops at infinity.
-/
import XPath.Proofs.Number.Grains
import XPath.Number.Decimal

namespace XPath.Number

/-! ### Finite doubles -/

/-- The parts of a bit pattern determine it. -/
theorem Parts.magnitude_of_finite {sign negative : Bool} {magnitude m s : Nat}
    (h : ofMagnitude sign magnitude = .finite negative m s) :
    sign = negative ∧ magnitude = s * 2 ^ 52 + m ∧ magnitude < 2047 * 2 ^ 52 := by
  rcases Nat.lt_trichotomy magnitude (2047 * 2 ^ 52) with hlt | heq | hgt
  · by_cases hsub : magnitude / 2 ^ 52 = 0
    · rw [ofMagnitude_subnormal _ hsub] at h
      cases h
      exact ⟨rfl, by omega, hlt⟩
    · rw [ofMagnitude_normal _ hsub (by omega)] at h
      cases h
      exact ⟨rfl, by omega, hlt⟩
  · rw [ofMagnitude_infinite _ heq] at h
    cases h
  · rw [ofMagnitude_nan _ hgt] at h
    cases h

theorem eq_of_toBits {x y : Float} (h : x.toBits.toNat = y.toBits.toNat) : x = y := by
  obtain ⟨⟨b, hb⟩⟩ := x
  obtain ⟨⟨c, hc⟩⟩ := y
  obtain rfl : b = c := UInt64.toNat_inj.1 h
  rfl

section Finite

variable {x : Float} {negative : Bool} {m s : Nat} (h : parts x = .finite negative m s)

include h

/-- The magnitude of a finite double is below that of infinity. -/
theorem magnitude_lt : s * 2 ^ 52 + m < 2047 * 2 ^ 52 := by
  obtain ⟨-, heq, hlt⟩ := Parts.magnitude_of_finite h
  omega

/-- A finite double is put together from its parts. -/
theorem ofMagnitude_of_parts : ofMagnitude negative (s * 2 ^ 52 + m) = x := by
  obtain ⟨hsign, heq, hlt⟩ := Parts.magnitude_of_finite h
  have hbits : x.toBits.toNat = (if negative then 2 ^ 63 else 0) + (s * 2 ^ 52 + m) := by
    have := x.toBits.toNat_lt
    rw [← hsign, ← heq, twoTo_eq]
    by_cases hneg : 2 ^ 63 ≤ x.toBits.toNat
    · rw [decide_eq_true hneg, if_pos rfl]
      omega
    · rw [decide_eq_false hneg, if_neg Bool.false_ne_true]
      omega
  apply eq_of_toBits
  rw [hbits, toNat_ofMagnitude negative (by omega)]

/-- A finite double is a number. -/
theorem isNaN_of_parts : x.isNaN = false := by
  show x.toModel.unpack.isNaN = false
  rw [unpack_eq, h]
  dsimp only [Parts.unpacked]
  split <;> rfl

end Finite

/-- A double is finite if it has grains. -/
theorem isFinite_iff {x : Float} :
    x.isFinite = true ↔ ∃ negative m s, parts x = .finite negative m s := by
  have hx : x.isFinite = (parts x).unpacked.isFinite := by
    rw [← unpack_eq]
    rfl
  rw [hx]
  cases parts x with
  | nan => simp [Parts.unpacked, Float.Model.UnpackedFloat.isFinite]
  | infinite negative => simp [Parts.unpacked, Float.Model.UnpackedFloat.isFinite]
  | finite negative m s =>
    refine iff_of_true ?_ ⟨negative, m, s, rfl⟩
    dsimp only [Parts.unpacked]
    split <;> rfl

theorem isNaN_of_isFinite {x : Float} (h : x.isFinite = true) : x.isNaN = false := by
  obtain ⟨_, _, _, hx⟩ := isFinite_iff.1 h
  exact isNaN_of_parts hx

/-! ### Rounding -/

section Rounding

variable {Q k m : Nat}

/-- The shift that leaves 53 bits of a quotient. -/
theorem shift_eq {N : Nat} (hQ : 0 < Q) (hm : m < 2 ^ 53) (hk : k ≠ 0 → 2 ^ 52 ≤ m)
    (hlow : m * (Q * 2 ^ k) ≤ N) (hhigh : N < (m + 1) * (Q * 2 ^ k)) :
    (N / Q).log2 - 52 = k := by
  have hle : m * 2 ^ k ≤ N / Q := by
    rw [Nat.le_div_iff_mul_le hQ]
    linarith
  have hlt : N / Q < 2 ^ (53 + k) := by
    rw [Nat.div_lt_iff_lt_mul hQ]
    calc N < (m + 1) * (Q * 2 ^ k) := hhigh
      _ ≤ 2 ^ 53 * (Q * 2 ^ k) := Nat.mul_le_mul_right _ hm
      _ = 2 ^ (53 + k) * Q := by rw [pow_add]; ring
  rcases Nat.eq_zero_or_pos k with rfl | hpos
  · rcases Nat.eq_zero_or_pos (N / Q) with h0 | hN
    · simp [h0]
    · have := (Nat.log2_lt (by omega)).2 hlt
      omega
  · have hge : 2 ^ (52 + k) ≤ N / Q := by
      rw [pow_add]
      exact (Nat.mul_le_mul_right _ (hk (by omega))).trans hle
    have hlog : (N / Q).log2 = 52 + k := by
      rw [Nat.log2_eq_iff (by have := Nat.two_pow_pos (52 + k); omega)]
      exact ⟨hge, by rwa [show 52 + k + 1 = 53 + k by omega]⟩
    omega

/-- A fraction is some steps and a rest, and is rounded up if the rest is more than half of a step,
or half of it and the number of steps is odd. -/
theorem nearestMagnitude_steps {r : Nat} (hQ : 0 < Q) (hm : m < 2 ^ 53)
    (hk : k ≠ 0 → 2 ^ 52 ≤ m) (hr : r < Q * 2 ^ k) :
    nearestMagnitude (m * (Q * 2 ^ k) + r) Q =
      min infinityBits
        (k * 2 ^ 52 + m + if Q * 2 ^ k < 2 * r ∨ Q * 2 ^ k = 2 * r ∧ m % 2 = 1 then 1 else 0) := by
  have hpos : 0 < Q * 2 ^ k := by positivity
  have hshift : ((m * (Q * 2 ^ k) + r) / Q).log2 - 52 = k :=
    shift_eq hQ hm hk (Nat.le_add_right _ _) (by rw [add_mul, one_mul]; omega)
  have hdiv : (m * (Q * 2 ^ k) + r) / (Q * 2 ^ k) = m := by
    rw [add_comm, Nat.add_mul_div_right _ _ hpos, Nat.div_eq_of_lt hr, zero_add]
  have hmod : (m * (Q * 2 ^ k) + r) % (Q * 2 ^ k) = r := by
    rw [add_comm, Nat.add_mul_mod_self_right, Nat.mod_eq_of_lt hr]
  unfold nearestMagnitude
  dsimp only
  rw [hshift, twoTo_eq, twoTo_eq, hdiv, hmod]
  simp only [Bool.or_eq_true, Bool.and_eq_true, decide_eq_true_eq, beq_iff_eq]

/-- Rounding depends on the fraction alone, not on how it is written. -/
theorem nearestMagnitude_mul (N : Nat) {c : Nat} (hc : 0 < c) :
    nearestMagnitude (N * c) (Q * c) = nearestMagnitude N Q := by
  unfold nearestMagnitude
  dsimp only
  rw [Nat.mul_div_mul_right _ _ hc]
  generalize (N / Q).log2 - 52 = shift
  rw [mul_right_comm Q c, Nat.mul_div_mul_right _ _ hc, Nat.mul_mod_mul_right, ← mul_assoc 2]
  generalize 2 * (N % (Q * twoTo shift)) = rest
  generalize Q * twoTo shift = scale
  simp only [Nat.mul_lt_mul_right hc]
  have heq : (scale * c == rest * c) = (scale == rest) := by
    rw [Bool.eq_iff_iff, beq_iff_eq, beq_iff_eq, Nat.mul_left_inj hc.ne']
  rw [heq]

/-- Equal fractions are rounded to one double. -/
theorem nearestMagnitude_congr {N N' Q' : Nat} (hQ : 0 < Q) (hQ' : 0 < Q')
    (h : N * Q' = N' * Q) : nearestMagnitude N Q = nearestMagnitude N' Q' := by
  rw [← nearestMagnitude_mul N hQ', ← nearestMagnitude_mul N' hQ, h, mul_comm Q']

end Rounding

/-! ### Neighbourhoods -/

namespace Decimal

variable {m s : Nat}

theorem tenTo_eq (k : Nat) : tenTo k = 10 ^ k := rfl

theorem tenTo_pos (k : Nat) : 0 < tenTo k := Nat.pow_pos (by decide)

theorem Neighbourhood.contains_iff {n : Neighbourhood} {d : Decimal} :
    n.contains d = true ↔
      (n.low * tenTo scale ≤ d.digits * tenTo d.power * quarters ∧
        d.digits * tenTo d.power * quarters ≤ n.high * tenTo scale) ∧
      (n.closed = false →
        n.low * tenTo scale ≠ d.digits * tenTo d.power * quarters ∧
          d.digits * tenTo d.power * quarters ≠ n.high * tenTo scale) := by
  unfold contains
  generalize d.digits * tenTo d.power * quarters = point
  cases n.closed with
  | true => simp
  | false =>
    simp
    omega

/-- A fraction of grains in the neighbourhood of a double rounds to it. -/
theorem Neighbourhood.nearest_of_between {N Q : Nat} (hQ : 0 < Q) (hm : m < 2 ^ 53)
    (hs : s ≠ 0 → 2 ^ 52 ≤ m) (hlt : s * 2 ^ 52 + m < 2047 * 2 ^ 52)
    (hlow : (Neighbourhood.of m s).low * Q ≤ 4 * N)
    (hhigh : 4 * N ≤ (Neighbourhood.of m s).high * Q)
    (hopen : (Neighbourhood.of m s).closed = false →
      (Neighbourhood.of m s).low * Q ≠ 4 * N ∧ 4 * N ≠ (Neighbourhood.of m s).high * Q) :
    nearestMagnitude N Q = s * 2 ^ 52 + m := by
  dsimp only [Neighbourhood.of] at hlow hhigh hopen
  rw [twoTo_eq s] at hlow hhigh hopen
  rw [twoTo_eq 52] at hlow hopen
  have hhigh' : (4 * m + 2) * 2 ^ s * Q = 4 * (m * (Q * 2 ^ s)) + 2 * (Q * 2 ^ s) := by ring
  rcases Nat.lt_or_ge N (m * (Q * 2 ^ s)) with hbelow | habove
  · by_cases hpower : m = 2 ^ 52 ∧ 0 < s
    · -- Below a power of two the steps are half as long, and the last of them is the odd one.
      obtain ⟨rfl, hpos⟩ := hpower
      obtain ⟨k, rfl⟩ : ∃ k, s = k + 1 := ⟨s - 1, by omega⟩
      rw [if_pos ⟨rfl, hpos⟩] at hlow
      have hlow' : (4 * 2 ^ 52 - 1) * 2 ^ (k + 1) * Q = (2 ^ 55 - 2) * (Q * 2 ^ k) := by
        rw [pow_succ]
        ring
      have hm' : 2 ^ 52 * (Q * 2 ^ (k + 1)) = 2 ^ 53 * (Q * 2 ^ k) := by
        rw [pow_succ]
        ring
      have hS : 0 < Q * 2 ^ k := by positivity
      rw [hlow'] at hlow
      rw [hm'] at hbelow
      obtain ⟨r, rfl⟩ : ∃ r, N = (2 ^ 53 - 1) * (Q * 2 ^ k) + r :=
        ⟨N - (2 ^ 53 - 1) * (Q * 2 ^ k), by omega⟩
      rw [nearestMagnitude_steps hQ (by omega) (by omega) (by omega), if_pos (by omega),
        infinityBits_eq]
      omega
    · rw [if_neg hpower] at hlow hopen
      obtain ⟨q, rfl⟩ : ∃ q, m = q + 1 := by
        refine ⟨m - 1, ?_⟩
        rcases Nat.eq_zero_or_pos m with rfl | hpos
        · simp at hbelow
        · omega
      have hlow' : (4 * (q + 1) - 2) * 2 ^ s * Q = 4 * (q * (Q * 2 ^ s)) + 2 * (Q * 2 ^ s) := by
        rw [show 4 * (q + 1) - 2 = 4 * q + 2 by omega]
        ring
      rw [hlow'] at hlow hopen
      rw [add_mul, one_mul] at hbelow
      obtain ⟨r, rfl⟩ : ∃ r, N = q * (Q * 2 ^ s) + r := ⟨N - q * (Q * 2 ^ s), by omega⟩
      have hodd : Q * 2 ^ s = 2 * r → q % 2 = 1 := by
        intro hr
        by_contra hq
        have := (hopen (by simp; omega)).1
        omega
      rw [nearestMagnitude_steps hQ (by omega) (by omega) (by omega), if_pos (by omega),
        infinityBits_eq]
      omega
  · rw [hhigh'] at hhigh hopen
    have hS : 0 < Q * 2 ^ s := by positivity
    obtain ⟨r, rfl⟩ : ∃ r, N = m * (Q * 2 ^ s) + r := ⟨N - m * (Q * 2 ^ s), by omega⟩
    have heven : Q * 2 ^ s = 2 * r → m % 2 ≠ 1 := by
      intro hr hmod
      have := (hopen (by simp [hmod])).2
      omega
    rw [nearestMagnitude_steps hQ hm hs (by omega), if_neg (by omega), infinityBits_eq]
    omega

/-- What lies in the neighbourhood of a double rounds to it. -/
theorem Neighbourhood.nearest_of_contains {d : Decimal} (hm : m < 2 ^ 53)
    (hs : s ≠ 0 → 2 ^ 52 ≤ m) (hlt : s * 2 ^ 52 + m < 2047 * 2 ^ 52)
    (h : (Neighbourhood.of m s).contains d = true) :
    nearestMagnitude (d.digits * tenTo d.power * one) (tenTo scale) = s * 2 ^ 52 + m := by
  rw [contains_iff, show quarters = 4 * one from rfl, mul_left_comm _ 4 one] at h
  obtain ⟨⟨hlow, hhigh⟩, hopen⟩ := h
  exact nearest_of_between (tenTo_pos scale) hm hs hlt hlow hhigh hopen

/-! ### The shortest decimal -/

theorem Neighbourhood.contains_of_decimal? {n : Neighbourhood} {size count : Nat} {d : Decimal}
    (h : n.decimal? size count = some d) : n.contains d = true := by
  unfold decimal? at h
  dsimp only at h
  split at h
  · next hl hu =>
    split at h
    · cases h
      exact hl
    · cases h
      exact hu
  · next hl _ =>
    cases h
    exact hl
  · next _ hu =>
    cases h
    exact hu
  · cases h

/-- A search ends in a decimal of the neighbourhood if the one with all digits is there. -/
theorem Neighbourhood.contains_search {n : Neighbourhood} (size : Nat)
    (h : n.contains ⟨n.middle * tenTo scale / quarters, 0⟩ = true) (fuel count : Nat) :
    n.contains (n.search size fuel count) = true := by
  induction fuel generalizing count with
  | zero => exact h
  | succ fuel ih =>
    rw [search]
    cases hd : n.decimal? size count with
    | none => exact ih (count + 1)
    | some d => exact contains_of_decimal? hd

/-- The digits reach further than the grains. -/
theorem quarters_lt_tenTo_scale : quarters < tenTo scale := by decide +kernel

/-- The shortest decimal of a double lies in its neighbourhood. -/
theorem contains_shortest (hm : 0 < m) :
    (Neighbourhood.of m s).contains (shortest m s) = true := by
  have hone : 0 < quarters := Nat.mul_pos (by decide) one_pos
  apply Neighbourhood.contains_search
  rw [Neighbourhood.contains_iff]
  dsimp only [Neighbourhood.of]
  rw [show tenTo 0 = 1 from rfl, mul_one, twoTo_eq s, twoTo_eq 52]
  have hT := quarters_lt_tenTo_scale
  generalize tenTo scale = T at hT ⊢
  -- All digits leave less than a quarter of a grain, and the ends are at least that far away.
  have hdiv := Nat.div_mul_le_self (4 * m * 2 ^ s * T) quarters
  have hrest := Nat.lt_div_mul_add hone (a := 4 * m * 2 ^ s * T)
  generalize 4 * m * 2 ^ s * T / quarters * quarters = point at hdiv hrest ⊢
  have hS : quarters < 2 ^ s * T := hT.trans_le (Nat.le_mul_of_pos_left _ (by positivity))
  have hmiddle : 4 * m * 2 ^ s * T = 4 * m * (2 ^ s * T) := by ring
  have hhigh : (4 * m + 2) * 2 ^ s * T = 4 * m * (2 ^ s * T) + 2 * (2 ^ s * T) := by ring
  have hlow : ∀ below, 1 ≤ below →
      (4 * m - below) * 2 ^ s * T + 2 ^ s * T ≤ 4 * m * (2 ^ s * T) := fun below hbelow => by
    calc (4 * m - below) * 2 ^ s * T + 2 ^ s * T = (4 * m - below + 1) * (2 ^ s * T) := by ring
      _ ≤ 4 * m * (2 ^ s * T) := Nat.mul_le_mul_right _ (by omega)
  have := hlow (if m = 2 ^ 52 ∧ 0 < s then 1 else 2) (by split <;> omega)
  rw [hmiddle] at hdiv hrest
  rw [hhigh]
  omega

/-- The shortest decimal of a double is rounded to it. -/
theorem nearest_shortest (hm : 0 < m) (hlt : m < 2 ^ 53) (hs : s ≠ 0 → 2 ^ 52 ≤ m)
    (hfinite : s * 2 ^ 52 + m < 2047 * 2 ^ 52) :
    nearestMagnitude ((shortest m s).digits * tenTo (shortest m s).power * one) (tenTo scale) =
      s * 2 ^ 52 + m :=
  Neighbourhood.nearest_of_contains hlt hs hfinite (contains_shortest hm)

end Decimal

/-! ### Numbers and NaN -/

theorem nearestMagnitude_le (numerator denominator : Nat) :
    nearestMagnitude numerator denominator ≤ 2047 * 2 ^ 52 :=
  Nat.min_le_left _ _

/-- A bit pattern up to that of infinity is that of a number. -/
theorem isNaN_ofMagnitude (negative : Bool) {magnitude : Nat} (h : magnitude ≤ 2047 * 2 ^ 52) :
    (ofMagnitude negative magnitude).isNaN = false := by
  rcases Nat.lt_or_eq_of_le h with hlt | rfl
  · have hparts := parts_ofMagnitude negative h
    by_cases hsub : magnitude / 2 ^ 52 = 0
    · exact isNaN_of_parts (hparts.trans (Parts.ofMagnitude_subnormal _ hsub))
    · exact isNaN_of_parts (hparts.trans (Parts.ofMagnitude_normal _ hsub (by omega)))
  · cases negative <;> decide +kernel

theorem isNaN_ofGrains (negative : Bool) (numerator denominator : Nat) :
    (ofGrains negative numerator denominator).isNaN = false :=
  isNaN_ofMagnitude negative (nearestMagnitude_le numerator denominator)

theorem isNaN_nan : nan.isNaN = true := by decide +kernel

end XPath.Number
