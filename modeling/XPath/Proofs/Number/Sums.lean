/-
Sums of doubles.

Adding two doubles aligns their significands, adds these and cuts what comes out to 53 bits.  Two
bits keep what was cut off, enough of it to decide on which side of one half it is, so that the sum
is the double closest to the exact one.

* `shiftRight_eq` — a shifted significand is a quotient, and its two bits tell where the rest is;
* `exists_roundWithAccuracy` — rounding a significand, with a carry into the exponent;
* `toNat_pack_round` — rounding a significand is rounding its grains;
* `add_eq` — a sum is the closest double to the sum of the grains.
-/
import XPath.Proofs.Number.Exact
import XPath.Proofs.Number.Nearest

namespace XPath.Number

open Float.Model Float.Model.UnpackedFloat

/-! ### Shifted significands -/

section Shift

variable (M i : Nat)

/-- A significand keeps its quotient when it is shifted, and two bits know on which side of one half
the rest is. -/
theorem shiftRight_eq :
    (⟨M, false, false⟩ : ExtendedMantissa) >>> i =
      ⟨M / 2 ^ i, decide (2 ^ i ≤ 2 * (M % 2 ^ i)),
        decide (M % 2 ^ i ≠ 0 ∧ 2 ^ i ≠ 2 * (M % 2 ^ i))⟩ := by
  induction i with
  | zero =>
    show (⟨M, false, false⟩ : ExtendedMantissa) = _
    simp [Nat.mod_one]
  | succ i ih =>
    have hr : M % 2 ^ i < 2 ^ i := Nat.mod_lt _ (Nat.two_pow_pos i)
    have hmod : M % 2 ^ (i + 1) = M % 2 ^ i + 2 ^ i * (M / 2 ^ i % 2) := by
      rw [pow_succ, Nat.mod_mul]
    show ((⟨M, false, false⟩ : ExtendedMantissa) >>> i).shiftRightOne = _
    rw [ih, ExtendedMantissa.shiftRightOne, hmod, pow_succ, ← Nat.div_div_eq_div_mul]
    dsimp only
    generalize M % 2 ^ i = r at hr
    generalize M / 2 ^ i = q
    generalize 2 ^ i = S at hr
    clear hmod ih
    have hbit := Nat.mod_two_eq_zero_or_one q
    rw [ExtendedMantissa.mk.injEq]
    refine ⟨rfl, ?_, ?_⟩
    · rw [Bool.eq_iff_iff, bne_iff_ne, decide_eq_true_iff]
      rcases hbit with hbit | hbit <;> rw [hbit] <;> omega
    · rw [Bool.eq_iff_iff, Bool.or_eq_true, decide_eq_true_iff, decide_eq_true_iff,
        decide_eq_true_iff]
      rcases hbit with hbit | hbit <;> rw [hbit] <;> omega

/-- Rounding looks at the bits only for the side on which the rest is. -/
theorem roundedMantissa_shiftRight :
    ((⟨M, false, false⟩ : ExtendedMantissa) >>> i).roundedMantissa =
      M / 2 ^ i + if 2 ^ i < 2 * (M % 2 ^ i) ∨ 2 ^ i = 2 * (M % 2 ^ i) ∧ M / 2 ^ i % 2 = 1
        then 1 else 0 := by
  rw [shiftRight_eq, ExtendedMantissa.roundedMantissa]
  have hpos : 0 < 2 ^ i := Nat.two_pow_pos i
  generalize M % 2 ^ i = r
  generalize M / 2 ^ i = q
  generalize 2 ^ i = S at hpos
  rcases Nat.lt_trichotomy (2 * r) S with h | h | h
  · rw [decide_eq_false h.not_ge, if_neg (by omega)]
    cases decide (r ≠ 0 ∧ S ≠ 2 * r) <;> rfl
  · rw [decide_eq_true h.ge, decide_eq_false (by omega)]
    show q + q % 2 = _
    split <;> omega
  · rw [decide_eq_true h.le, decide_eq_true (by omega), if_pos (Or.inl h)]
    rfl

end Shift

/-! ### Rounded significands -/

section Round

variable {M j i : Nat}

theorem targetExponent_eq (m k : Nat) :
    Format.binary64.targetExponent (totalExponent m (k - 1074)) =
      ((m.log2 + k - 52 : Nat) : ℤ) - 1074 := by
  have hbits : Format.binary64.mantissaBits = 53 := rfl
  have hmin : Format.binary64.minExponent = -1074 := rfl
  unfold Format.targetExponent totalExponent
  rw [hbits, hmin]
  omega

theorem shiftToTargetExponent_eq {m k : Nat} (h : m.log2 + k - 52 = k + i) :
    shiftToTargetExponent .binary64 m (k - 1074) .exact =
      ((⟨m, false, false⟩ : ExtendedMantissa) >>> i, ((k + i : Nat) : ℤ) - 1074) := by
  unfold shiftToTargetExponent shiftToExponent
  rw [targetExponent_eq, h]
  dsimp only
  rw [show (((k + i : Nat) : ℤ) - 1074 - (k - 1074)).toNat = i by omega,
    show (k : ℤ) - 1074 + i = ((k + i : Nat) : ℤ) - 1074 by omega]
  rfl

section Cut

variable (hM : 0 < M) (h : M.log2 + j - 52 = j + i)

include hM h

/-- What is shifted has 53 bits afterwards, and what is not has no more of them. -/
theorem canonical_div :
    0 < M / 2 ^ i ∧ M / 2 ^ i < 2 ^ 53 ∧ (j + i ≠ 0 → 2 ^ 52 ≤ M / 2 ^ i) := by
  have hlow := Nat.log2_self_le hM.ne'
  have hhigh := Nat.lt_log2_self (n := M)
  refine ⟨?_, ?_, fun hne => ?_⟩
  · rw [Nat.div_pos_iff]
    exact ⟨by positivity, (Nat.pow_le_pow_right (by decide) (by omega)).trans hlow⟩
  · rw [Nat.div_lt_iff_lt_mul (by positivity), ← pow_add]
    exact hhigh.trans_le (Nat.pow_le_pow_right (by decide) (by omega))
  · rw [Nat.le_div_iff_mul_le (by positivity), ← pow_add]
    exact (Nat.pow_le_pow_right (by decide) (by omega)).trans hlow

/-- Rounding cuts a significand to 53 bits, and a carry out of them lands in the exponent. -/
theorem exists_roundWithAccuracy (sign : Sign) :
    ∃ n l : Nat, ∃ hn : 0 < n, roundWithAccuracy .binary64 sign M (j - 1074) .exact =
        .finite sign n (l - 1074) hn ∧
      n < 2 ^ 53 ∧ (l ≠ 0 → 2 ^ 52 ≤ n) ∧
      l * 2 ^ 52 + n = (j + i) * 2 ^ 52 + (M / 2 ^ i +
        if 2 ^ i < 2 * (M % 2 ^ i) ∨ 2 ^ i = 2 * (M % 2 ^ i) ∧ M / 2 ^ i % 2 = 1
          then 1 else 0) := by
  obtain ⟨u, hu⟩ : ∃ u, u = if 2 ^ i < 2 * (M % 2 ^ i) ∨
    2 ^ i = 2 * (M % 2 ^ i) ∧ M / 2 ^ i % 2 = 1 then 1 else 0 := ⟨_, rfl⟩
  have hu1 : u ≤ 1 := by rw [hu]; split <;> omega
  obtain ⟨hpos, hm53, hm52⟩ := canonical_div hM h
  unfold roundWithAccuracy
  rw [shiftToTargetExponent_eq h]
  dsimp only
  rw [roundedMantissa_shiftRight, ← hu]
  generalize M / 2 ^ i = m at hpos hm53 hm52 ⊢
  rcases Nat.lt_or_ge (m + u) (2 ^ 53) with hlt | hge
  · have hlog : (m + u).log2 + (j + i) - 52 = j + i + 0 := by
      have := (Nat.log2_lt (n := m + u) (k := 53) (by omega)).2 hlt
      have : j + i ≠ 0 → 52 ≤ (m + u).log2 := fun hne =>
        (Nat.le_log2 (by omega)).2 ((hm52 hne).trans (Nat.le_add_right _ _))
      omega
    rw [shiftToTargetExponent_eq hlog]
    exact ⟨m + u, j + i, by omega, dif_neg (by show ¬ m + u = 0; omega), hlt,
      fun hne => (hm52 hne).trans (Nat.le_add_right _ _), rfl⟩
  · have hcarry : m + u = 2 ^ 53 := by omega
    rw [hcarry, shiftToTargetExponent_eq (i := 1) (by rw [Nat.log2_two_pow]; omega),
      shiftRight_eq]
    exact ⟨2 ^ 52, j + i + 1, by decide, dif_neg (show ¬ 2 ^ 52 = 0 by decide), by decide,
      fun _ => le_rfl, by omega⟩

/-- The cut is the rounding of the grains. -/
theorem nearestMagnitude_cut :
    nearestMagnitude (M * 2 ^ j) 1 = min infinityBits ((j + i) * 2 ^ 52 + (M / 2 ^ i +
      if 2 ^ i < 2 * (M % 2 ^ i) ∨ 2 ^ i = 2 * (M % 2 ^ i) ∧ M / 2 ^ i % 2 = 1
        then 1 else 0)) := by
  obtain ⟨-, hm53, hm52⟩ := canonical_div hM h
  have hj : 0 < 2 ^ j := Nat.two_pow_pos j
  have hscale : 1 * 2 ^ (j + i) = 2 ^ i * 2 ^ j := by rw [one_mul, add_comm, pow_add]
  have hrest : M % 2 ^ i * 2 ^ j < 1 * 2 ^ (j + i) := by
    rw [hscale]
    exact Nat.mul_lt_mul_of_pos_right (Nat.mod_lt _ (Nat.two_pow_pos i)) hj
  have hN : M * 2 ^ j = M / 2 ^ i * (1 * 2 ^ (j + i)) + M % 2 ^ i * 2 ^ j := by
    rw [hscale, ← mul_assoc, ← add_mul, Nat.div_add_mod']
  rw [hN, nearestMagnitude_steps Nat.one_pos hm53 hm52 hrest, hscale, ← mul_assoc, add_assoc]
  simp only [Nat.mul_lt_mul_right hj, Nat.mul_left_inj hj.ne']

end Cut

/-- A significand of 53 bits is packed as the steps that it counts, up to infinity. -/
theorem toNat_pack_finite (negative : Bool) {n l : Nat} (hn : 0 < n) (hlt : n < 2 ^ 53)
    (hl : l ≠ 0 → 2 ^ 52 ≤ n) :
    (UnpackedFloat.pack .binary64 (.finite (signOf negative) n (l - 1074) hn)).toNat =
      (if negative then 2 ^ 63 else 0) + min infinityBits (l * 2 ^ 52 + n) := by
  rw [infinityBits_eq]
  rcases Nat.lt_or_ge (l * 2 ^ 52 + n) (2047 * 2 ^ 52) with hfinite | hinf
  · rw [Nat.min_eq_right hfinite.le, ← toNat_pack negative hfinite.le,
      Parts.ofMagnitude_canonical negative hlt hl hfinite, Parts.unpacked_pos _ _ hn.ne']
  · have hbias : Format.binary64.exponentBias = 1023 := rfl
    rw [Nat.min_eq_left hinf, ← toNat_pack negative le_rfl, Parts.ofMagnitude_infinite _ rfl,
      UnpackedFloat.pack, if_pos (by rw [hbias]; simp; omega)]
    rfl

theorem log2_shift (hM : 0 < M) (d : Nat) : (M * 2 ^ d).log2 = M.log2 + d := by
  rw [Nat.log2_eq_iff (by positivity), show M.log2 + d + 1 = M.log2 + 1 + d by omega, pow_add,
    pow_add 2 (M.log2 + 1)]
  exact ⟨Nat.mul_le_mul_right _ (Nat.log2_self_le hM.ne'),
    Nat.mul_lt_mul_of_pos_right Nat.lt_log2_self (by positivity)⟩

/-- Rounding a significand rounds its grains. -/
theorem toNat_pack_round (negative : Bool) (hM : 0 < M) :
    (UnpackedFloat.pack .binary64 (UnpackedFloat.round .binary64 (signOf negative) M
      (j - 1074))).toNat = (if negative then 2 ^ 63 else 0) + nearestMagnitude (M * 2 ^ j) 1 := by
  obtain ⟨K, hK⟩ : ∃ K, K = M.log2 + j - 52 := ⟨_, rfl⟩
  obtain ⟨d, hd⟩ : ∃ d, d = j - K := ⟨_, rfl⟩
  have hshift : UnpackedFloat.round .binary64 (signOf negative) M (j - 1074) =
      roundWithAccuracy .binary64 (signOf negative) (M * 2 ^ d) ((min j K : Nat) - 1074)
        .exact := by
    unfold UnpackedFloat.round decreaseExponent
    rw [targetExponent_eq, ← hK]
    dsimp only
    rw [show ((j : ℤ) - 1074 - (K - 1074)).toNat = d by omega, Nat.shiftLeft_eq,
      show (j : ℤ) - 1074 - d = (min j K : Nat) - 1074 by omega]
  have hlog : (M * 2 ^ d).log2 + min j K - 52 = min j K + (K - min j K) := by
    rw [log2_shift hM]
    omega
  have hgrains : M * 2 ^ d * 2 ^ min j K = M * 2 ^ j := by
    rw [mul_assoc, ← pow_add, show d + min j K = j by omega]
  have hM' : 0 < M * 2 ^ d := by positivity
  obtain ⟨n, l, hn, hround, hlt, hl, hsteps⟩ :=
    exists_roundWithAccuracy hM' hlog (signOf negative)
  rw [hshift, hround, toNat_pack_finite negative hn hlt hl, hsteps, ← nearestMagnitude_cut hM' hlog,
    hgrains]

end Round

/-! ### Sums -/

/-- A signed significand that is packed stands for its grains. -/
theorem toNat_pack_normalize {M : ℤ} (hM : M ≠ 0) (j : Nat) (sign : Sign) :
    (UnpackedFloat.pack .binary64 (UnpackedFloat.normalize .binary64 M
      (j - 1074) sign)).toNat =
      (if M * 2 ^ j < 0 then 2 ^ 63 else 0) + nearestMagnitude (M * 2 ^ j).natAbs 1 := by
  have hpos : (0 : ℤ) < 2 ^ j := by positivity
  have hcast : ((2 ^ j : Nat) : ℤ) = 2 ^ j := by push_cast; rfl
  unfold UnpackedFloat.normalize
  rcases lt_or_gt_of_ne hM with hneg | hpos'
  · have habs : (M * 2 ^ j).natAbs = (-M).toNat * 2 ^ j := by
      rw [Int.natAbs_mul, ← hcast, Int.natAbs_natCast]
      congr 1
      omega
    rw [compare_lt_iff_lt.2 hneg, if_pos (mul_neg_of_neg_of_pos hneg hpos), habs]
    exact toNat_pack_round true (by omega)
  · have habs : (M * 2 ^ j).natAbs = M.toNat * 2 ^ j := by
      rw [Int.natAbs_mul, ← hcast, Int.natAbs_natCast]
      congr 1
      omega
    rw [compare_gt_iff_gt.2 hpos', if_neg (mul_pos hpos' hpos).not_gt, habs]
    exact toNat_pack_round false (by omega)

theorem apply_signOf (negative : Bool) (s : Nat) {j k : Nat} (h : j ≤ k) :
    (signOf negative).apply (s * 2 ^ (k - j) : Nat) * 2 ^ j = signedGrains negative s k := by
  obtain ⟨d, rfl⟩ := Nat.exists_eq_add_of_le h
  rw [Nat.add_sub_cancel_left]
  cases negative with
  | false =>
    rw [signedGrains_false]
    show ((s * 2 ^ d : Nat) : ℤ) * 2 ^ j = _
    push_cast
    ring
  | true =>
    rw [signedGrains_true]
    show -((s * 2 ^ d : Nat) : ℤ) * 2 ^ j = _
    push_cast
    ring

section Add

variable {x y : Float} {negative negative' : Bool} {s k t l : Nat}
  (hx : parts x = .finite negative s k) (hy : parts y = .finite negative' t l)

include hx hy

/-- A sum aligns the significands of doubles other than zero, and adds them. -/
theorem exists_toModel_add (hs : s ≠ 0) (ht : t ≠ 0) :
    ∃ (M : ℤ) (j : Nat), M * 2 ^ j = signedGrains negative s k + signedGrains negative' t l ∧
      (x + y).toModel = .pack (UnpackedFloat.normalize .binary64 M (j - 1074) .positive) := by
  have hmodel : (x + y).toModel =
      .pack (UnpackedFloat.add .binary64 x.toModel.unpack y.toModel.unpack) := rfl
  obtain ⟨j, hj⟩ : ∃ j, j = min k l := ⟨_, rfl⟩
  refine ⟨(signOf negative).apply (s * 2 ^ (k - j) : Nat) +
    (signOf negative').apply (t * 2 ^ (l - j) : Nat), j, ?_, ?_⟩
  · rw [add_mul, apply_signOf _ _ (by omega), apply_signOf _ _ (by omega)]
  · rw [hmodel, unpack_eq, unpack_eq, hx, hy, Parts.unpacked_pos _ _ hs, Parts.unpacked_pos _ _ ht]
    unfold UnpackedFloat.add decreaseExponent
    dsimp only
    rw [show min ((k : ℤ) - 1074) (l - 1074) = j - 1074 by omega,
      show ((k : ℤ) - 1074 - (j - 1074)).toNat = k - j by omega,
      show ((l : ℤ) - 1074 - (j - 1074)).toNat = l - j by omega, Nat.shiftLeft_eq,
      Nat.shiftLeft_eq]

/-- The sum of two doubles other than zero is the closest double to the sum of their grains, if
there are any left. -/
theorem add_eq (hs : s ≠ 0) (ht : t ≠ 0)
    (hne : signedGrains negative s k + signedGrains negative' t l ≠ 0) :
    x + y = ofGrains (signedGrains negative s k + signedGrains negative' t l < 0)
      (signedGrains negative s k + signedGrains negative' t l).natAbs 1 := by
  obtain ⟨M, j, hsum, hmodel⟩ := exists_toModel_add hx hy hs ht
  rw [← hsum] at hne ⊢
  apply eq_of_toBits
  rw [ofGrains, toNat_ofMagnitude _ (nearestMagnitude_le _ _)]
  refine (congrArg (fun model : Float.Model => model.toBits.toNat) hmodel).trans ?_
  refine (toNat_pack_normalize (left_ne_zero_of_mul hne) j .positive).trans ?_
  simp only [decide_eq_true_eq]

end Add

end XPath.Number
