/-
The double that is closest to a rational number.

A finite double has an exact value, a whole number of grains.  Of the doubles that enclose a
fraction of grains, the closer one is taken, and the one with an even bit pattern if both are
equally close.  Half a step past the largest double, infinity takes over.

* `grains`, `toRat` — the exact value of a double;
* `IsClosest` — rounding to the nearest double, ties to even;
* `exists_steps` — every fraction is some steps between doubles and a rest;
* `grains_le_or_le` — there is no double inside of a step;
* `isClosest_ofGrains` — a fraction of grains is rounded to the closest double.
-/
import XPath.Proofs.Number.Nearest

namespace XPath.Number

/-! ### Exact values -/

/-- The grains of a double, with its sign; none if it is not finite. -/
def grains (x : Float) : Int :=
  match parts x with
  | .finite negative significand shift => signedGrains negative significand shift
  | _ => 0

/-- The exact value of a finite double. -/
def toRat (x : Float) : ℚ := grains x / one

/-- Half a step past the largest double. -/
def overflow : ℚ := 2 ^ 1024 - 2 ^ 970

/-- Rounding to the nearest, ties to even: no double is closer to the number than this one, and if
another one is just as close, the bit pattern of this one is even.  Numbers that are not below
half a step past the largest double are rounded to infinity. -/
def IsClosest (x : Float) (q : ℚ) : Prop :=
  if overflow ≤ |q| then x = infinity (q < 0)
  else x.isFinite = true ∧ ∀ y : Float, y.isFinite = true →
    |toRat x - q| ≤ |toRat y - q| ∧
      (|toRat x - q| = |toRat y - q| → toRat y = toRat x ∨ x.toBits.toNat % 2 = 0)

/-- A number with the sign of a double. -/
def withSign (negative : Bool) (q : ℚ) : ℚ := if negative then -q else q

theorem withSign_true (q : ℚ) : withSign true q = -q := rfl

theorem withSign_false (q : ℚ) : withSign false q = q := rfl

theorem abs_withSign (negative : Bool) (q : ℚ) : |withSign negative q| = |q| := by
  cases negative with
  | false => rfl
  | true => exact abs_neg q

theorem withSign_neg_iff {q : ℚ} (h : 0 < q) (negative : Bool) :
    decide (withSign negative q < 0) = negative := by
  cases negative with
  | false => exact decide_eq_false h.not_gt
  | true => exact decide_eq_true (neg_neg_of_pos h)

theorem grains_of_parts {x : Float} {negative : Bool} {m s : Nat}
    (h : parts x = .finite negative m s) : grains x = signedGrains negative m s := by
  rw [grains, h]

theorem toRat_of_grains {x : Float} {negative : Bool} {m s : Nat}
    (h : grains x = signedGrains negative m s) :
    toRat x = withSign negative ((m * 2 ^ s : Nat) / one) := by
  rw [toRat, h]
  cases negative with
  | false => rw [signedGrains_false, withSign_false, Int.cast_natCast]
  | true => rw [signedGrains_true, withSign_true, Int.cast_neg, Int.cast_natCast, neg_div]

theorem natAbs_signedGrains (negative : Bool) (m s : Nat) :
    (signedGrains negative m s).natAbs = m * 2 ^ s := by
  cases negative with
  | false => rw [signedGrains_false, Int.natAbs_natCast]
  | true => rw [signedGrains_true, Int.natAbs_neg, Int.natAbs_natCast]

/-! ### Steps -/

section Steps

variable {Q k m : Nat}

/-- Every fraction is a number of steps, of which 53 bits are enough, and a rest. -/
theorem exists_steps (N : Nat) (hQ : 0 < Q) :
    ∃ k m r, m < 2 ^ 53 ∧ (k ≠ 0 → 2 ^ 52 ≤ m) ∧ r < Q * 2 ^ k ∧ N = m * (Q * 2 ^ k) + r := by
  have hlog := Nat.lt_log2_self (n := N / Q)
  have hS : 0 < Q * 2 ^ ((N / Q).log2 - 52) := by positivity
  refine ⟨(N / Q).log2 - 52, N / (Q * 2 ^ ((N / Q).log2 - 52)), N % (Q * 2 ^ ((N / Q).log2 - 52)),
    ?_, fun hk => ?_, Nat.mod_lt _ hS, (Nat.div_add_mod' _ _).symm⟩
  · rw [← Nat.div_div_eq_div_mul, Nat.div_lt_iff_lt_mul (by positivity), ← pow_add]
    exact hlog.trans_le (Nat.pow_le_pow_right (by decide) (by omega))
  · have hne : N / Q ≠ 0 := by
      intro h
      rw [h] at hk
      exact hk rfl
    rw [← Nat.div_div_eq_div_mul, Nat.le_div_iff_mul_le (by positivity), ← pow_add,
      Nat.add_sub_cancel' (by omega)]
    exact Nat.log2_self_le hne

/-- There is no double inside of a step. -/
theorem grains_le_or_le {t l : Nat} (hk : k ≠ 0 → 2 ^ 52 ≤ m) (ht : t < 2 ^ 53)
    (hl : l ≠ 0 → 2 ^ 52 ≤ t) : t * 2 ^ l ≤ m * 2 ^ k ∨ (m + 1) * 2 ^ k ≤ t * 2 ^ l := by
  rcases Nat.lt_or_ge l k with hlt | hge
  · exact Or.inl (grains_lt ht hk hlt).le
  · obtain ⟨d, rfl⟩ := Nat.exists_eq_add_of_le hge
    rw [add_comm k d, pow_add, ← mul_assoc]
    rcases Nat.lt_or_ge m (t * 2 ^ d) with h | h
    · exact Or.inr (Nat.mul_le_mul_right _ h)
    · exact Or.inl (Nat.mul_le_mul_right _ h)

theorem natAbs_grains_le_or_le {y : Float} (hy : y.isFinite = true) (hk : k ≠ 0 → 2 ^ 52 ≤ m) :
    (grains y).natAbs ≤ m * 2 ^ k ∨ (m + 1) * 2 ^ k ≤ (grains y).natAbs := by
  obtain ⟨negative, t, l, hparts⟩ := isFinite_iff.1 hy
  obtain ⟨ht, hl⟩ := canonical_parts hparts
  rw [grains_of_parts hparts, natAbs_signedGrains]
  exact grains_le_or_le hk ht hl

/-- The same on either side of zero. -/
theorem toRat_le_or_le {y : Float} (hy : y.isFinite = true) (negative : Bool)
    (hk : k ≠ 0 → 2 ^ 52 ≤ m) :
    ∃ g : ℤ, toRat y = withSign negative (g / one) ∧
      (g ≤ (m * 2 ^ k : Nat) ∨ ((m + 1) * 2 ^ k : Nat) ≤ g) := by
  have hgap := natAbs_grains_le_or_le hy hk
  cases negative with
  | false => exact ⟨grains y, rfl, by omega⟩
  | true =>
    exact ⟨-grains y, by rw [withSign_true, Int.cast_neg, neg_div, neg_neg, toRat], by omega⟩

/-- Steps of 53 bits are the parts of the bit pattern that counts them. -/
theorem Parts.ofMagnitude_canonical (negative : Bool) (hm : m < 2 ^ 53) (hk : k ≠ 0 → 2 ^ 52 ≤ m)
    (h : k * 2 ^ 52 + m < 2047 * 2 ^ 52) :
    ofMagnitude negative (k * 2 ^ 52 + m) = .finite negative m k := by
  rcases Nat.lt_or_ge m (2 ^ 52) with hsub | hnormal
  · obtain rfl : k = 0 := by
      by_contra hne
      exact absurd (hk hne) (by omega)
    rw [ofMagnitude_subnormal _ (by omega), Nat.mod_eq_of_lt (by omega), zero_mul, zero_add]
  · rw [ofMagnitude_normal _ (by omega) (by omega),
      show (k * 2 ^ 52 + m) % 2 ^ 52 + 2 ^ 52 = m by omega,
      show (k * 2 ^ 52 + m) / 2 ^ 52 - 1 = k by omega]

/-- A bit pattern that counts the steps up to a double stands for that many steps. -/
theorem grains_ofMagnitude (negative : Bool) (hm : m ≤ 2 ^ 53) (hk : k ≠ 0 → 2 ^ 52 ≤ m)
    (h : k * 2 ^ 52 + m < 2047 * 2 ^ 52) :
    (ofMagnitude negative (k * 2 ^ 52 + m)).isFinite = true ∧
      grains (ofMagnitude negative (k * 2 ^ 52 + m)) = signedGrains negative m k := by
  suffices hparts : ∃ n l, parts (ofMagnitude negative (k * 2 ^ 52 + m)) = .finite negative n l ∧
      n * 2 ^ l = m * 2 ^ k by
    obtain ⟨n, l, hparts, heq⟩ := hparts
    refine ⟨isFinite_iff.2 ⟨_, _, _, hparts⟩, (grains_of_parts hparts).trans ?_⟩
    rw [signedGrains, signedGrains, heq]
  rw [parts_ofMagnitude negative h.le]
  rcases Nat.lt_or_eq_of_le hm with hlt | rfl
  · exact ⟨m, k, Parts.ofMagnitude_canonical negative hlt hk h, rfl⟩
  · -- The carry of all bits of the significand lands in the exponent.
    refine ⟨2 ^ 52, k + 1, ?_, by rw [pow_succ]; ring⟩
    rw [show k * 2 ^ 52 + 2 ^ 53 = (k + 1) * 2 ^ 52 + 2 ^ 52 by omega] at h ⊢
    exact Parts.ofMagnitude_canonical negative (by decide) (fun _ => le_rfl) h

end Steps

/-! ### The closest double -/

section Closest

variable {Q k m r : Nat}

/-- A rest is rounded to the closer end of its step, or to the even one. -/
theorem closer_end {S A u : Nat} {g : ℤ} (hr : r < S)
    (hu : u = if S < 2 * r ∨ S = 2 * r ∧ m % 2 = 1 then 1 else 0)
    (hg : g ≤ A ∨ (A : ℤ) + S ≤ g) :
    |(A + u * S : ℤ) - (A + r)| ≤ |g - (A + r)| ∧
      (|(A + u * S : ℤ) - (A + r)| = |g - (A + r)| → g = A + u * S ∨ (m + u) % 2 = 0) := by
  have hup : |(A + u * S : ℤ) - (A + r)| = if u = 1 then (S : ℤ) - r else r := by
    split at hu <;> subst hu
    · rw [if_pos rfl, abs_of_nonneg] <;> push_cast <;> omega
    · rw [if_neg (by decide), abs_of_nonpos] <;> push_cast <;> omega
  have hdist : |g - (A + r)| = if g ≤ A then (A + r : ℤ) - g else g - (A + r) := by
    split
    · rw [abs_of_nonpos (by omega)]
      ring
    · rw [abs_of_nonneg (by omega)]
  rw [hup, hdist]
  split at hu <;> subst hu <;> push_cast <;> omega

/-- The same of fractions of grains. -/
theorem closer_grains {u : Nat} {g : ℤ} (hQ : 0 < Q) (hr : r < Q * 2 ^ k)
    (hu : u = if Q * 2 ^ k < 2 * r ∨ Q * 2 ^ k = 2 * r ∧ m % 2 = 1 then 1 else 0)
    (hg : g ≤ (m * 2 ^ k : Nat) ∨ ((m + 1) * 2 ^ k : Nat) ≤ g) :
    |((m + u) * 2 ^ k : Nat) * Q - ((m * (Q * 2 ^ k) + r : Nat) : ℤ)| ≤
        |g * Q - (m * (Q * 2 ^ k) + r : Nat)| ∧
      (|((m + u) * 2 ^ k : Nat) * Q - ((m * (Q * 2 ^ k) + r : Nat) : ℤ)| =
          |g * Q - (m * (Q * 2 ^ k) + r : Nat)| →
        g = ((m + u) * 2 ^ k : Nat) ∨ (m + u) % 2 = 0) := by
  have hQ' : (0 : ℤ) < Q := by omega
  have hgap : g * Q ≤ (m * (Q * 2 ^ k) : Nat) ∨
      ((m * (Q * 2 ^ k) : Nat) : ℤ) + (Q * 2 ^ k : Nat) ≤ g * Q := by
    rcases hg with h | h
    · left
      calc g * Q ≤ (m * 2 ^ k : Nat) * Q := mul_le_mul_of_nonneg_right h hQ'.le
        _ = (m * (Q * 2 ^ k) : Nat) := by push_cast; ring
    · right
      calc ((m * (Q * 2 ^ k) : Nat) : ℤ) + (Q * 2 ^ k : Nat) = ((m + 1) * 2 ^ k : Nat) * Q := by
            push_cast; ring
        _ ≤ g * Q := mul_le_mul_of_nonneg_right h hQ'.le
  have hend : ((m * (Q * 2 ^ k) : Nat) : ℤ) + u * (Q * 2 ^ k : Nat) =
      ((m + u) * 2 ^ k : Nat) * Q := by
    push_cast
    ring
  have hclose := closer_end hr hu hgap
  rw [hend, ← Nat.cast_add, mul_left_inj' hQ'.ne'] at hclose
  exact hclose

/-- The counted steps reach a bit pattern without a fraction once the number of grains is half a
step before it. -/
theorem le_steps_iff {u : Nat} (e : Nat) (hm : m < 2 ^ 53) (hk : k ≠ 0 → 2 ^ 52 ≤ m)
    (hr : r < Q * 2 ^ k)
    (hu : u = if Q * 2 ^ k < 2 * r ∨ Q * 2 ^ k = 2 * r ∧ m % 2 = 1 then 1 else 0) :
    (2 ^ 54 - 1) * (Q * 2 ^ e) ≤ m * (Q * 2 ^ k) + r ↔ (e + 3) * 2 ^ 52 ≤ k * 2 ^ 52 + (m + u) := by
  have hu1 : u ≤ 1 := by rw [hu]; split <;> omega
  rcases Nat.lt_trichotomy k (e + 1) with hlt | rfl | hgt
  · have hle : Q * 2 ^ k ≤ Q * 2 ^ e :=
      Nat.mul_le_mul_left Q (Nat.pow_le_pow_right (by decide) (by omega))
    have hlow : (m + 1) * (Q * 2 ^ k) ≤ 2 ^ 53 * (Q * 2 ^ e) := Nat.mul_le_mul hm hle
    refine iff_of_false ?_ (by omega)
    rw [add_mul, one_mul] at hlow
    generalize Q * 2 ^ e = P at hle hlow ⊢
    omega
  · -- Only the last significand leaves less than a step, and it is odd.
    have hm52 := hk (by omega)
    rw [pow_succ 2 e, ← mul_assoc Q] at hr hu ⊢
    generalize Q * 2 ^ e = P at hr hu ⊢
    rcases Nat.lt_or_ge m (2 ^ 53 - 1) with hlt | hge
    · have hlow : (m + 1) * (P * 2) ≤ (2 ^ 53 - 1) * (P * 2) := Nat.mul_le_mul_right _ hlt
      rw [add_mul, one_mul] at hlow
      exact iff_of_false (by omega) (by omega)
    · obtain rfl : m = 2 ^ 53 - 1 := by omega
      split at hu <;> omega
  · have hm52 := hk (by omega)
    have hle : Q * 2 ^ (e + 2) ≤ Q * 2 ^ k :=
      Nat.mul_le_mul_left Q (Nat.pow_le_pow_right (by decide) (by omega))
    have hhigh : 2 ^ 52 * (Q * 2 ^ (e + 2)) ≤ m * (Q * 2 ^ k) := Nat.mul_le_mul hm52 hle
    refine iff_of_true ?_ (by omega)
    rw [pow_add 2 e, ← mul_assoc Q] at hhigh
    generalize Q * 2 ^ e = P at hhigh ⊢
    omega

theorem overflow_le_iff (N : Nat) (hQ : 0 < Q) :
    overflow ≤ (N / (Q * one) : ℚ) ↔ (2 ^ 54 - 1) * (Q * 2 ^ 2044) ≤ N := by
  have hone : (one : ℚ) = 2 ^ 1074 := by rw [one_eq rfl, Nat.cast_pow, Nat.cast_ofNat]
  have hQ' : (0 : ℚ) < Q * one := by rw [hone]; positivity
  have hleft : overflow * (Q * one) = ((2 ^ 54 - 1) * (Q * 2 ^ 2044) : Nat) := by
    have h1024 : (2 : ℚ) ^ 1024 = 2 ^ 54 * 2 ^ 970 := pow_add 2 54 970
    have h2044 : ((2 ^ 2044 : Nat) : ℚ) = 2 ^ 970 * 2 ^ 1074 := by
      rw [Nat.cast_pow, Nat.cast_ofNat]
      exact pow_add 2 970 1074
    rw [overflow, hone, h1024, Nat.cast_mul, Nat.cast_mul, h2044]
    generalize (2 : ℚ) ^ 970 = x
    generalize (2 : ℚ) ^ 1074 = y
    push_cast
    ring
  rw [le_div_iff₀ hQ', hleft, Nat.cast_le]

/-- The counted steps reach infinity half a step past the largest double. -/
theorem overflow_le_steps_iff {u : Nat} (hQ : 0 < Q) (hm : m < 2 ^ 53) (hk : k ≠ 0 → 2 ^ 52 ≤ m)
    (hr : r < Q * 2 ^ k)
    (hu : u = if Q * 2 ^ k < 2 * r ∨ Q * 2 ^ k = 2 * r ∧ m % 2 = 1 then 1 else 0) :
    overflow ≤ ((m * (Q * 2 ^ k) + r : Nat) / (Q * one) : ℚ) ↔
      2047 * 2 ^ 52 ≤ k * 2 ^ 52 + (m + u) :=
  (overflow_le_iff _ hQ).trans (le_steps_iff 2044 hm hk hr hu)

/-- What is not below half a step past the largest double is not zero. -/
theorem pos_of_overflow_le {N : Nat} (hQ : 0 < Q) (h : overflow ≤ (N / (Q * one) : ℚ)) :
    0 < N := by
  rw [overflow_le_iff N hQ] at h
  exact (Nat.mul_pos (by decide) (Nat.mul_pos hQ (Nat.two_pow_pos _))).trans_le h

/-- The distance of a whole number of grains from a fraction of them, which are behind one sign. -/
theorem abs_sub_fraction (negative : Bool) (g : ℤ) (N : Nat) (hQ : 0 < Q) :
    |withSign negative (g / one) - withSign negative (N / (Q * one))| =
      ((|g * Q - N| : ℤ) : ℚ) / (Q * one) := by
  have hone : (0 : ℚ) < one := by exact_mod_cast one_pos
  have hQ' : (0 : ℚ) < Q := by exact_mod_cast hQ
  have hD : (0 : ℚ) < Q * one := mul_pos hQ' hone
  have hsub : (g / one - N / (Q * one) : ℚ) = ((g * Q - N : ℤ) : ℚ) / (Q * one) := by
    rw [sub_div' hD.ne']
    generalize (one : ℚ) = d at hone hD ⊢
    push_cast
    field_simp
  rw [Int.cast_abs, ← abs_of_pos hD, ← abs_div, abs_of_pos hD, ← hsub]
  cases negative with
  | false => rw [withSign_false, withSign_false]
  | true => rw [withSign_true, withSign_true, ← neg_sub', abs_neg]

/-- A fraction of grains is rounded to the closest double. -/
theorem isClosest_ofGrains (negative : Bool) (N : Nat) (hQ : 0 < Q) :
    IsClosest (ofGrains negative N Q) (withSign negative (N / (Q * one))) := by
  obtain ⟨k, m, r, hm, hk, hr, rfl⟩ := exists_steps N hQ
  obtain ⟨u, hu⟩ : ∃ u, u = if Q * 2 ^ k < 2 * r ∨ Q * 2 ^ k = 2 * r ∧ m % 2 = 1 then 1 else 0 :=
    ⟨_, rfl⟩
  have hu1 : u ≤ 1 := by rw [hu]; split <;> omega
  have hone : (0 : ℚ) < one := by exact_mod_cast one_pos
  have hD : (0 : ℚ) < Q * one := mul_pos (by exact_mod_cast hQ) hone
  have hmagnitude := nearestMagnitude_steps hQ hm hk hr
  have hoverflow := overflow_le_steps_iff hQ hm hk hr hu
  rw [← hu, infinityBits_eq, add_assoc] at hmagnitude
  unfold IsClosest
  rw [abs_withSign, abs_of_nonneg (div_nonneg (Nat.cast_nonneg _) hD.le), ofGrains, hmagnitude]
  split
  · next hinf =>
    have hpos := div_pos (Nat.cast_pos.2 (pos_of_overflow_le hQ hinf)) hD
    rw [Nat.min_eq_left (hoverflow.1 hinf), withSign_neg_iff hpos]
    rfl
  · next hfinite =>
    have hsmall := hoverflow.not.1 hfinite
    obtain ⟨hx, hgrains⟩ := grains_ofMagnitude negative (m := m + u) (k := k) (by omega)
      (fun h => (hk h).trans (by omega)) (by omega)
    rw [Nat.min_eq_right (by omega)]
    refine ⟨hx, fun y hy => ?_⟩
    obtain ⟨g, hg, hgap⟩ := toRat_le_or_le hy negative hk
    obtain ⟨hle, heven⟩ := closer_grains hQ hr hu hgap
    rw [toRat_of_grains hgrains, hg, ← Int.cast_natCast (R := ℚ) ((m + u) * 2 ^ k),
      abs_sub_fraction _ _ _ hQ, abs_sub_fraction _ _ _ hQ, div_le_div_iff_of_pos_right hD,
      div_left_inj' hD.ne', Int.cast_le, Int.cast_inj]
    refine ⟨hle, fun heq => (heven heq).imp (fun h => by rw [h]) fun h => ?_⟩
    rw [toNat_ofMagnitude _ (by omega)]
    cases negative with
    | false => rw [if_neg Bool.false_ne_true]; omega
    | true => rw [if_pos rfl]; omega

end Closest

end XPath.Number
