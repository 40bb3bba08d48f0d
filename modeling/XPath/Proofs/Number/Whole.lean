/-
Doubles and whole numbers.

The double that is closest to a number is never on the other side of a double, and a number that
53 bits are enough for is a double itself.  So the whole numbers up to `2 ^ 53` are not rounded,
and the floor of a double is the whole part of its grains.

* `le_iff_toRat` — finite doubles are in order if their values are;
* `eq_of_grains` — grains other than none belong to one double;
* `IsClosest.le`, `IsClosest.ge` — the closest double does not pass another one;
* `exists_grains`, `grains_ofGrains` — grains that 53 bits are enough for;
* `grains_floor` — the floor of a finite double.
-/
import XPath.Proofs.Number.Exact

namespace XPath.Number

/-! ### Order -/

theorem parts_zero : parts 0 = .finite false 0 0 := rfl

theorem isFinite_zero : (0 : Float).isFinite = true := isFinite_iff.2 ⟨_, _, _, parts_zero⟩

theorem toRat_le_iff {x y : Float} : toRat x ≤ toRat y ↔ grains x ≤ grains y := by
  have hone : (0 : ℚ) < one := by exact_mod_cast one_pos
  rw [toRat, toRat, div_le_div_iff_of_pos_right hone, Int.cast_le]

/-- Finite doubles are in order if their values are. -/
theorem le_iff_toRat {x y : Float} (hx : x.isFinite = true) (hy : y.isFinite = true) :
    x ≤ y ↔ toRat x ≤ toRat y := by
  obtain ⟨_, _, _, hx⟩ := isFinite_iff.1 hx
  obtain ⟨_, _, _, hy⟩ := isFinite_iff.1 hy
  rw [toRat_le_iff, le_iff hx hy, grains_of_parts hx, grains_of_parts hy]

/-- Grains determine a significand and its shift. -/
theorem grains_inj {s k t l : Nat} (hs : s < 2 ^ 53) (hk : k ≠ 0 → 2 ^ 52 ≤ s) (ht : t < 2 ^ 53)
    (hl : l ≠ 0 → 2 ^ 52 ≤ t) (h : s * 2 ^ k = t * 2 ^ l) : s = t ∧ k = l := by
  rcases Nat.lt_trichotomy k l with hlt | rfl | hgt
  · exact absurd h (grains_lt hs hl hlt).ne
  · exact ⟨Nat.eq_of_mul_eq_mul_right (Nat.two_pow_pos k) h, rfl⟩
  · exact absurd h (grains_lt ht hk hgt).ne'

/-- Grains other than none belong to one double. -/
theorem eq_of_grains {x y : Float} (hx : x.isFinite = true) (hy : y.isFinite = true)
    (h0 : grains x ≠ 0) (h : grains x = grains y) : x = y := by
  obtain ⟨negative, s, k, hx⟩ := isFinite_iff.1 hx
  obtain ⟨negative', t, l, hy⟩ := isFinite_iff.1 hy
  obtain ⟨hs, hk⟩ := canonical_parts hx
  obtain ⟨ht, hl⟩ := canonical_parts hy
  have habs := congrArg Int.natAbs h
  rw [grains_of_parts hx, grains_of_parts hy, natAbs_signedGrains, natAbs_signedGrains] at habs
  obtain ⟨rfl, rfl⟩ := grains_inj hs hk ht hl habs
  rw [grains_of_parts hx] at h0 h
  rw [grains_of_parts hy] at h
  have hsign : negative = negative' := by
    cases negative with
    | false =>
      cases negative' with
      | false => rfl
      | true =>
        rw [signedGrains_false] at h0 h
        rw [signedGrains_true] at h
        omega
    | true =>
      cases negative' with
      | true => rfl
      | false =>
        rw [signedGrains_true] at h0 h
        rw [signedGrains_false] at h
        omega
  rw [← ofMagnitude_of_parts hx, ← ofMagnitude_of_parts hy, hsign]

section Closest

variable {x y : Float} {q : ℚ} (h : IsClosest x q) (hq : |q| < overflow)

include h hq

theorem IsClosest.isFinite : x.isFinite = true := by
  rw [IsClosest, if_neg hq.not_ge] at h
  exact h.1

/-- A closest double does not pass another one. -/
theorem IsClosest.le (hy : y.isFinite = true) (hle : q ≤ toRat y) : toRat x ≤ toRat y := by
  rw [IsClosest, if_neg hq.not_ge] at h
  by_contra hlt
  have hdist := (h.2 y hy).1
  rw [abs_of_nonneg (by linarith), abs_of_nonneg (by linarith)] at hdist
  linarith

theorem IsClosest.ge (hy : y.isFinite = true) (hle : toRat y ≤ q) : toRat y ≤ toRat x := by
  rw [IsClosest, if_neg hq.not_ge] at h
  by_contra hlt
  have hdist := (h.2 y hy).1
  rw [abs_of_nonpos (by linarith), abs_of_nonpos (by linarith)] at hdist
  linarith

end Closest

/-- Rounding a number of grains does not pass a double. -/
theorem grains_ofGrains_mono (negative : Bool) {N k : Nat} (hk : k ≤ 2044)
    (hN : N ≤ 2 ^ 53 * 2 ^ k) :
    (ofGrains negative N 1).isFinite = true ∧ ∀ y : Float, y.isFinite = true →
      (signedGrains negative N 0 ≤ grains y → grains (ofGrains negative N 1) ≤ grains y) ∧
      (grains y ≤ signedGrains negative N 0 → grains y ≤ grains (ofGrains negative N 1)) := by
  have hclosest := isClosest_ofGrains negative N Nat.one_pos
  have hone : (0 : ℚ) < one := by exact_mod_cast one_pos
  have hq : |withSign negative (N / ((1 : Nat) * one))| < overflow := by
    have hD : (0 : ℚ) ≤ (1 : Nat) * one := mul_nonneg (Nat.cast_nonneg 1) hone.le
    rw [abs_withSign, abs_of_nonneg (div_nonneg (Nat.cast_nonneg N) hD), ← not_le,
      overflow_le_iff N Nat.one_pos, Nat.one_mul (2 ^ 2044)]
    refine (hN.trans_lt ?_).not_ge
    exact Nat.mul_lt_mul_of_lt_of_le (by decide) (pow_le_pow_right₀ one_le_two hk)
      (pow_pos two_pos 2044)
  have heq : withSign negative (N / ((1 : Nat) * one)) = signedGrains negative N 0 / one := by
    rw [Nat.cast_one, one_mul]
    cases negative with
    | false => rw [withSign_false, signedGrains_false, pow_zero, mul_one, Int.cast_natCast]
    | true =>
      rw [withSign_true, signedGrains_true, pow_zero, mul_one, Int.cast_neg, Int.cast_natCast,
        neg_div]
  refine ⟨hclosest.isFinite hq, fun y hy => ⟨fun hle => ?_, fun hle => ?_⟩⟩
  · refine toRat_le_iff.1 (hclosest.le hq hy ?_)
    rw [heq, toRat, div_le_div_iff_of_pos_right hone]
    exact_mod_cast hle
  · refine toRat_le_iff.1 (hclosest.ge hq hy ?_)
    rw [heq, toRat, div_le_div_iff_of_pos_right hone]
    exact_mod_cast hle

/-- Grains that 53 bits are enough for are those of a double. -/
theorem exists_grains (negative : Bool) {m k : Nat} (hm : m ≤ 2 ^ 53) (hk : k ≤ 2044) :
    ∃ y : Float, y.isFinite = true ∧ grains y = signedGrains negative m k := by
  obtain ⟨l, n, r, hn, hl, hr, heq⟩ := exists_steps (m * 2 ^ k) Nat.one_pos
  rw [Nat.one_mul] at hr heq
  have htop : m * 2 ^ k ≤ 2 ^ 53 * 2 ^ k := Nat.mul_le_mul_right _ hm
  have hstart : l ≠ 0 → 2 ^ 52 * 2 ^ l ≤ m * 2 ^ k := fun hne => by
    rw [heq]
    exact (Nat.mul_le_mul_right _ (hl hne)).trans (Nat.le_add_right _ _)
  have hl1 : l ≤ k + 1 := by
    by_contra hgt
    have hpow := (hstart (by omega)).trans htop
    rw [← pow_add, ← pow_add, Nat.pow_le_pow_iff_right (by decide)] at hpow
    omega
  -- The grains leave no rest, as a step is not longer than the one that they are given in.
  have hgrains : n * 2 ^ l = m * 2 ^ k := by
    rcases Nat.lt_or_eq_of_le hl1 with hle | rfl
    · have hdvd : 2 ^ l ∣ m * 2 ^ k := Dvd.dvd.mul_left (Nat.pow_dvd_pow 2 (by omega)) m
      rw [heq, Nat.dvd_add_right (Nat.dvd_mul_left _ _)] at hdvd
      rw [heq, Nat.eq_zero_of_dvd_of_lt hdvd hr, add_zero]
    · have hlow := hstart (by omega)
      have hn52 : 2 ^ 52 * 2 ^ (k + 1) ≤ n * 2 ^ (k + 1) := Nat.mul_le_mul_right _ (hl (by omega))
      rw [pow_succ 2 k] at hlow hn52 heq ⊢
      omega
  have hfinite : l * 2 ^ 52 + n < 2047 * 2 ^ 52 := by omega
  obtain ⟨hy, hg⟩ := grains_ofMagnitude negative hn.le hl hfinite
  exact ⟨_, hy, by rw [hg, signedGrains, signedGrains, hgrains]⟩

/-- Grains that 53 bits are enough for are not rounded. -/
theorem grains_ofGrains (negative : Bool) {m k : Nat} (hm : m ≤ 2 ^ 53) (hk : k ≤ 2044) :
    (ofGrains negative (m * 2 ^ k) 1).isFinite = true ∧
      grains (ofGrains negative (m * 2 ^ k) 1) = signedGrains negative m k := by
  have heq : signedGrains negative (m * 2 ^ k) 0 = signedGrains negative m k := by
    rw [signedGrains, signedGrains, pow_zero, mul_one]
  obtain ⟨hfinite, hmono⟩ := grains_ofGrains_mono negative hk (Nat.mul_le_mul_right _ hm)
  obtain ⟨y, hy, hg⟩ := exists_grains negative hm hk
  obtain ⟨hle, hge⟩ := hmono y hy
  rw [hg, heq] at hle hge
  exact ⟨hfinite, le_antisymm (hle le_rfl) (hge le_rfl)⟩

section Bounds

variable {N m k : Nat} (hm : m ≤ 2 ^ 53) (hk : k ≤ 2044)

include hm hk

theorem grains_ofGrains_le (h : N ≤ m * 2 ^ k) :
    (ofGrains false N 1).isFinite = true ∧ grains (ofGrains false N 1) ≤ (m * 2 ^ k : Nat) := by
  obtain ⟨y, hy, hg⟩ := exists_grains false hm hk
  obtain ⟨hfinite, hmono⟩ :=
    grains_ofGrains_mono false hk (h.trans (Nat.mul_le_mul_right _ hm))
  refine ⟨hfinite, ?_⟩
  rw [← signedGrains_false, ← hg]
  refine (hmono y hy).1 ?_
  rw [hg, signedGrains_false, signedGrains_false, pow_zero, mul_one]
  exact_mod_cast h

theorem le_grains_ofGrains {l : Nat} (hl : l ≤ 2044) (hN : N ≤ 2 ^ 53 * 2 ^ l)
    (h : m * 2 ^ k ≤ N) : (m * 2 ^ k : Nat) ≤ grains (ofGrains false N 1) := by
  obtain ⟨y, hy, hg⟩ := exists_grains false hm hk
  rw [← signedGrains_false, ← hg]
  refine ((grains_ofGrains_mono false hl hN).2 y hy).2 ?_
  rw [hg, signedGrains_false, signedGrains_false, pow_zero, mul_one]
  exact_mod_cast h

end Bounds

/-! ### Whole numbers -/

/-- The number of grains in one half. -/
def half : Nat := twoTo 1073

theorem half_eq {k : Nat} (h : k = 1073) : half = 2 ^ k := by rw [half, twoTo_eq, h]

theorem half_pos : 0 < half := by
  rw [half_eq rfl]
  positivity

theorem one_eq_two_halves : one = 2 * half := by
  rw [one_eq (show 1 + 1073 = 1074 from rfl), half_eq rfl, pow_add, pow_one]

/-- The whole part of a number of grains, rounded down. -/
theorem ediv_one_eq {g n : ℤ} (hle : n * one ≤ g) (hlt : g < (n + 1) * one) : g / one = n := by
  have hone : (0 : ℤ) < one := by exact_mod_cast one_pos
  refine le_antisymm ?_ ((Int.le_ediv_iff_mul_le hone).2 hle)
  exact Int.lt_add_one_iff.1 ((Int.ediv_lt_iff_lt_mul hone).2 hlt)

/-- What lies in the first half after a whole number has that whole part. -/
theorem ediv_one_eq_natCast {g : ℤ} {n : Nat} (hle : (n * one : Nat) ≤ g)
    (hlt : g ≤ (n * one + half : Nat)) : g / one = n := by
  have hone := one_eq_two_halves
  have hpos := half_pos
  refine ediv_one_eq (by rw [← Nat.cast_mul]; exact hle) ?_
  rw [add_mul, one_mul, ← Nat.cast_mul]
  omega

theorem ofRatio_whole (negative : Bool) {n : Nat} (hn : n ≤ 2 ^ 53) :
    (ofRatio negative n 1).isFinite = true ∧
      grains (ofRatio negative n 1) = signedGrains negative n 1074 := by
  rw [ofRatio, one_eq rfl]
  exact grains_ofGrains negative hn (by decide)

theorem signedGrains_eq (negative : Bool) (m k : Nat) :
    signedGrains negative m k = signedGrains negative (m * 2 ^ k) 0 := by
  rw [signedGrains, signedGrains, pow_zero, mul_one]

/-- A double with a fraction is below `2 ^ 52`. -/
theorem whole_lt {s k : Nat} (hs : s < 2 ^ 53) (h : s * 2 ^ k % one ≠ 0) :
    s * 2 ^ k / one < 2 ^ 52 := by
  have hk : k ≤ 1073 := by
    by_contra hk
    refine h (Nat.mod_eq_zero_of_dvd (Dvd.dvd.mul_left ?_ s))
    rw [one_eq rfl]
    exact pow_dvd_pow 2 (by omega)
  have htop : s * 2 ^ k < 2 ^ 53 * half := by
    rw [half_eq rfl]
    exact Nat.mul_lt_mul_of_lt_of_le hs (pow_le_pow_right₀ one_le_two hk) (pow_pos two_pos _)
  rw [Nat.div_lt_iff_lt_mul one_pos, one_eq_two_halves]
  omega

/-- The floor of a finite double is the whole part of its grains, rounded down. -/
theorem grains_floor {z : Float} (hz : z.isFinite = true) :
    (floor z).isFinite = true ∧ grains (floor z) = grains z / one * one := by
  obtain ⟨negative, s, k, hparts⟩ := isFinite_iff.1 hz
  obtain ⟨hs, -⟩ := canonical_parts hparts
  have hgrains := grains_of_parts hparts
  rw [signedGrains_eq] at hgrains
  have hwhole := whole_lt (k := k) hs
  rw [floor, hparts]
  dsimp only
  rw [twoTo_eq]
  generalize s * 2 ^ k = g at hgrains hwhole ⊢
  have hg : g / one * one + g % one = g := Nat.div_add_mod' g one
  have hrest : g % one < one := Nat.mod_lt g one_pos
  generalize g / one = q at hg hwhole ⊢
  generalize g % one = r at hg hrest hwhole ⊢
  split
  · next hr =>
    refine ⟨hz, (Int.ediv_mul_cancel ?_).symm⟩
    rw [hgrains, ← Int.dvd_natAbs, natAbs_signedGrains, pow_zero, mul_one, ← hg, hr, add_zero]
    exact_mod_cast Nat.dvd_mul_left one q
  · next hr =>
    have hq := hwhole hr
    split
    · next hneg =>
      obtain ⟨hfinite, hfloor⟩ := ofRatio_whole true (n := q + 1) (by omega)
      refine ⟨hfinite, ?_⟩
      rw [hfloor, hgrains, hneg, signedGrains_true, signedGrains_true, ← one_eq rfl, pow_zero,
        mul_one, ← hg, ediv_one_eq (n := -(q + 1 : Nat))]
      · push_cast
        ring
      · push_cast
        linarith
      · have : (0 : ℤ) < r := by omega
        push_cast
        linarith
    · next hneg =>
      obtain ⟨hfinite, hfloor⟩ := ofRatio_whole false (n := q) (by omega)
      refine ⟨hfinite, ?_⟩
      rw [hfloor, hgrains, Bool.eq_false_of_not_eq_true hneg, signedGrains_false,
        signedGrains_false, ← one_eq rfl, pow_zero, mul_one, ← hg, ediv_one_eq (n := q)]
      · push_cast
        ring
      · push_cast
        linarith
      · push_cast
        linarith

/-- The whole numbers among the values. -/
theorem toRat_eq_intCast_iff {x : Float} {n : ℤ} : toRat x = n ↔ grains x = n * one := by
  have hone : (one : ℚ) ≠ 0 := by exact_mod_cast one_pos.ne'
  rw [toRat, div_eq_iff hone]
  exact_mod_cast Iff.rfl

end XPath.Number
