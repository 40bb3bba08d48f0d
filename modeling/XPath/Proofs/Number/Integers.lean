/-
The integers among the doubles.

An integer that 53 bits are enough for is a double, and sums, negation and rounding are exact while
they stay among these integers.  The doubles closest to natural numbers are in the order of the
numbers, also where they are rounded or too large to be finite.

* `place?` — where a double is on a line with both infinities, if it is anywhere;
* `le_trans`, `lt_of_le_of_lt` — the order of doubles;
* `ofNat_le_ofNat` — the doubles of natural numbers are in order;
* `HasValue` — a double that is an integer;
* `HasValue.neg`, `HasValue.add`, `HasValue.round` — what is exact about it.
-/
import XPath.Proofs.Number.Rounding

namespace XPath.Number

open Float.Model Float.Model.UnpackedFloat

/-! ### The order of all doubles -/

/-- Where a double is on a line, in grains.  Infinity is where the next double would be; NaN is
nowhere. -/
def place? (x : Float) : Option ℤ :=
  match parts x with
  | .nan => none
  | .infinite negative => some (signedGrains negative (2 ^ 52) 2046)
  | .finite negative significand shift => some (signedGrains negative significand shift)

section Place

variable {x y z : Float} {negative negative' : Bool} {s k : Nat}

/-- Finite doubles lie between the infinities. -/
theorem natAbs_lt_infinity (hx : parts x = .finite negative s k) :
    (signedGrains negative s k).natAbs < 2 ^ 52 * 2 ^ 2046 := by
  obtain ⟨hs, hk⟩ := canonical_parts hx
  have hlt := magnitude_lt hx
  rw [natAbs_signedGrains]
  refine grains_lt hs (fun _ => le_rfl) ?_
  by_contra hge
  have := hk (by omega)
  omega

theorem compare_infinity (hx : parts x = .finite negative s k)
    (hy : parts y = .infinite negative') :
    x.toModel.unpack.compare y.toModel.unpack =
      some (compare (signedGrains negative s k) (signedGrains negative' (2 ^ 52) 2046)) := by
  have hlt := natAbs_lt_infinity hx
  rw [unpack_eq, unpack_eq, hx, hy]
  have hmodel : (Parts.finite negative s k).unpacked.compare (Parts.infinite negative').unpacked =
      some (if negative' then .gt else .lt) := by
    rcases Nat.eq_zero_or_pos s with rfl | hs
    · rw [Parts.unpacked_zero]
      cases negative <;> cases negative' <;> rfl
    · rw [Parts.unpacked_pos _ _ hs.ne']
      cases negative <;> cases negative' <;> rfl
  rw [hmodel]
  generalize signedGrains negative s k = g at hlt
  cases negative' with
  | false =>
    rw [signedGrains_false]
    generalize 2 ^ 52 * 2 ^ 2046 = top at hlt
    rw [if_neg Bool.false_ne_true, compare_lt_iff_lt.2 (by omega)]
  | true =>
    rw [signedGrains_true]
    generalize 2 ^ 52 * 2 ^ 2046 = top at hlt
    rw [if_pos rfl, compare_gt_iff_gt.2 (by omega)]

theorem compare_infinities (hx : parts x = .infinite negative)
    (hy : parts y = .infinite negative') :
    x.toModel.unpack.compare y.toModel.unpack =
      some (compare (signedGrains negative (2 ^ 52) 2046)
        (signedGrains negative' (2 ^ 52) 2046)) := by
  have hpos : 0 < 2 ^ 52 * 2 ^ 2046 := by positivity
  rw [unpack_eq, unpack_eq, hx, hy]
  unfold signedGrains
  generalize 2 ^ 52 * 2 ^ 2046 = top at hpos
  cases negative <;> cases negative'
  · rw [compare_eq_iff_eq.2 rfl]
    rfl
  · rw [compare_gt_iff_gt.2 (by simp; omega)]
    rfl
  · rw [compare_lt_iff_lt.2 (by simp; omega)]
    rfl
  · rw [compare_eq_iff_eq.2 rfl]
    rfl

/-- The comparison of two doubles is that of their places. -/
theorem compare_eq_place :
    x.toModel.unpack.compare y.toModel.unpack =
      (place? x).bind fun a => (place? y).map (compare a) := by
  unfold place?
  cases hx : parts x with
  | nan =>
    rw [unpack_eq, hx]
    rfl
  | infinite negative =>
    cases hy : parts y with
    | nan =>
      rw [unpack_eq, unpack_eq, hx, hy]
      rfl
    | infinite negative' => exact compare_infinities hx hy
    | finite negative' t l =>
      rw [compare_swap, compare_infinity hy hx]
      exact congrArg some (Int.compare_swap _ _)
  | finite negative s k =>
    cases hy : parts y with
    | nan =>
      rw [compare_swap, unpack_eq y, hy]
      rfl
    | infinite negative' => exact compare_infinity hx hy
    | finite negative' t l => exact compare_unpack hx hy

theorem le_iff_place : x ≤ y ↔ ∃ a ∈ place? x, ∃ b ∈ place? y, a ≤ b := by
  show decide ((x.toModel.unpack.compare y.toModel.unpack).any (·.isLE) = true) = true ↔ _
  rw [decide_eq_true_iff, compare_eq_place]
  cases place? x <;> cases place? y <;> simp [Int.isLE_compare]

theorem lt_iff_place : x < y ↔ ∃ a ∈ place? x, ∃ b ∈ place? y, a < b := by
  show decide ((x.toModel.unpack.compare y.toModel.unpack == some .lt) = true) = true ↔ _
  rw [decide_eq_true_iff, compare_eq_place]
  cases place? x <;> cases place? y <;> simp [compare_lt_iff_lt]

protected theorem le_trans (hxy : x ≤ y) (hyz : y ≤ z) : x ≤ z := by
  rw [le_iff_place] at hxy hyz ⊢
  obtain ⟨a, ha, b, hb, hab⟩ := hxy
  obtain ⟨b', hb', c, hc, hbc⟩ := hyz
  obtain rfl := Option.mem_unique hb hb'
  exact ⟨a, ha, c, hc, hab.trans hbc⟩

protected theorem lt_of_le_of_lt (hxy : x ≤ y) (hyz : y < z) : x < z := by
  rw [le_iff_place] at hxy
  rw [lt_iff_place] at hyz ⊢
  obtain ⟨a, ha, b, hb, hab⟩ := hxy
  obtain ⟨b', hb', c, hc, hbc⟩ := hyz
  obtain rfl := Option.mem_unique hb hb'
  exact ⟨a, ha, c, hc, hab.trans_lt hbc⟩

protected theorem le_of_lt (h : x < y) : x ≤ y := by
  rw [lt_iff_place] at h
  rw [le_iff_place]
  obtain ⟨a, ha, b, hb, hab⟩ := h
  exact ⟨a, ha, b, hb, hab.le⟩

theorem parts_infinity (negative : Bool) : parts (infinity negative) = .infinite negative :=
  (parts_ofMagnitude negative le_rfl).trans (Parts.ofMagnitude_infinite _ rfl)

/-- Finite doubles are below infinity. -/
theorem lt_infinity (hx : x.isFinite = true) : x < infinity false := by
  obtain ⟨negative, s, k, hparts⟩ := isFinite_iff.1 hx
  have hlt := natAbs_lt_infinity hparts
  rw [lt_iff_place]
  unfold place?
  rw [hparts, parts_infinity]
  refine ⟨_, rfl, _, rfl, ?_⟩
  rw [signedGrains_false]
  generalize 2 ^ 52 * 2 ^ 2046 = top at hlt ⊢
  omega

end Place

/-! ### Natural numbers -/

theorem isClosest_ofNat (n : Nat) : IsClosest (ofNat n) n := by
  have h := isClosest_ofGrains false (n * one) Nat.one_pos
  have hone : (one : ℚ) ≠ 0 := by exact_mod_cast one_pos.ne'
  rw [withSign_false, Nat.cast_mul, Nat.cast_one, one_mul, mul_div_cancel_right₀ _ hone] at h
  exact h

/-- Of two numbers that are not equal, the closest doubles are in the same order. -/
theorem IsClosest.le_of_lt {x y : Float} {p q : ℚ} (hx : IsClosest x p) (hy : IsClosest y q)
    (hp : |p| < overflow) (hq : |q| < overflow) (h : p < q) : x ≤ y := by
  have hx' := hx.isFinite hp
  have hy' := hy.isFinite hq
  rw [le_iff_toRat hx' hy']
  rw [IsClosest, if_neg hp.not_ge] at hx
  rw [IsClosest, if_neg hq.not_ge] at hy
  by_contra hlt
  have hleft := sq_le_sq.2 (hx.2 y hy').1
  have hright := sq_le_sq.2 (hy.2 x hx').1
  -- Both numbers would have to be on the far side of the middle of the two doubles.
  nlinarith

theorem ofNat_eq_infinity {n : Nat} (h : overflow ≤ |(n : ℚ)|) : ofNat n = infinity false := by
  have hn := isClosest_ofNat n
  rw [IsClosest, if_pos h, decide_eq_false (Nat.cast_nonneg n).not_gt] at hn
  exact hn

theorem ofNat_le_infinity (n : Nat) : ofNat n ≤ infinity false := by
  rcases le_or_gt overflow |(n : ℚ)| with hover | hfinite
  · rw [ofNat_eq_infinity hover, le_iff_place, place?, parts_infinity]
    exact ⟨_, rfl, _, rfl, le_rfl⟩
  · exact Number.le_of_lt (lt_infinity ((isClosest_ofNat n).isFinite hfinite))

/-- The doubles of natural numbers are in their order, be they rounded or infinite. -/
theorem ofNat_le_ofNat {m n : Nat} (h : m ≤ n) : ofNat m ≤ ofNat n := by
  have hm := isClosest_ofNat m
  have hn := isClosest_ofNat n
  have hcast : ∀ k : Nat, |(k : ℚ)| = k := fun k => abs_of_nonneg (Nat.cast_nonneg k)
  rcases le_or_gt overflow |(n : ℚ)| with hover | hq
  · rw [ofNat_eq_infinity hover]
    exact ofNat_le_infinity m
  · have hp : |(m : ℚ)| < overflow := by
      rw [hcast] at hq ⊢
      exact (Nat.cast_le.2 h).trans_lt hq
    rcases h.lt_or_eq with hlt | rfl
    · exact hm.le_of_lt hn hp hq (Nat.cast_lt.2 hlt)
    · exact (le_iff_toRat (hm.isFinite hp) (hm.isFinite hp)).2 le_rfl

/-! ### Integers -/

/-- A double is finite and an integer. -/
def HasValue (x : Float) (n : ℤ) : Prop := x.isFinite = true ∧ toRat x = n

section Integers

variable {x y : Float} {m n : ℤ}

theorem hasValue_iff : HasValue x n ↔ x.isFinite = true ∧ grains x = n * one := by
  rw [HasValue, toRat_eq_intCast_iff]

theorem HasValue.le_iff (hx : HasValue x m) (hy : HasValue y n) : x ≤ y ↔ m ≤ n := by
  rw [le_iff_toRat hx.1 hy.1, hx.2, hy.2, Int.cast_le]

theorem HasValue.lt_iff (hx : HasValue x m) (hy : HasValue y n) : x < y ↔ m < n := by
  obtain ⟨_, _, _, hpx⟩ := isFinite_iff.1 hx.1
  obtain ⟨_, _, _, hpy⟩ := isFinite_iff.1 hy.1
  have hone : (0 : ℤ) < one := by exact_mod_cast one_pos
  rw [Number.lt_iff hpx hpy, ← grains_of_parts hpx, ← grains_of_parts hpy, (hasValue_iff.1 hx).2,
    (hasValue_iff.1 hy).2, mul_lt_mul_iff_left₀ hone]

theorem hasValue_ofNat {p : Nat} (hp : p ≤ 2 ^ 53) : HasValue (ofNat p) p := by
  obtain ⟨hfinite, hg⟩ := ofRatio_whole false hp
  refine hasValue_iff.2 ⟨hfinite, ?_⟩
  rw [ofNat, hg, signedGrains_false, ← one_eq rfl, Nat.cast_mul]

/-- Rounding leaves integers alone, up to where it adds one half to what has no halves. -/
theorem HasValue.round (hx : HasValue x n) (hn : n.natAbs ≤ 2 ^ 52) : round x = x := by
  refine round_eq_self hx.1 ?_ hx.2
  rintro (rfl | ⟨k, hk, -, hlow, -⟩)
  · have hg := (hasValue_iff.1 hx).2
    obtain ⟨hpos, hlt⟩ := grains_last_lt
    have hone := one_eq_two_halves
    rw [hg] at hpos hlt
    have h1 : 0 < n := by
      by_contra hneg
      have := Int.mul_nonpos_of_nonpos_of_nonneg (a := n) (b := one) (by omega) (by omega)
      omega
    have h2 : (1 : ℤ) * one ≤ n * one := mul_le_mul_of_nonneg_right h1 (by omega)
    omega
  · have := Int.cast_inj.1 (hx.2.symm.trans hk)
    omega

end Integers

/-! ### Arithmetic -/

section Pack

variable {x y z : Float} {negative negative' : Bool} {s k t l : Nat}

/-- What is packed from the parts of a double has these parts. -/
theorem parts_of_pack (hx : parts x = .finite negative s k)
    (hz : z.toModel = .pack (Parts.finite negative' s k).unpacked) :
    parts z = .finite negative' s k := by
  obtain ⟨hs, hk⟩ := canonical_parts hx
  have hlt := magnitude_lt hx
  have hcanonical := Parts.ofMagnitude_canonical negative' hs hk hlt
  have hz' : z = ofMagnitude negative' (k * 2 ^ 52 + s) := by
    apply eq_of_toBits
    rw [toNat_ofMagnitude negative' hlt.le, ← toNat_pack negative' hlt.le, hcanonical]
    exact congrArg (fun model : Float.Model => model.toBits.toNat) hz
  rw [hz', parts_ofMagnitude negative' hlt.le, hcanonical]

theorem parts_neg (hx : parts x = .finite negative s k) : parts (-x) = .finite (!negative) s k := by
  have hmodel : (-x).toModel = .pack x.toModel.unpack.neg := rfl
  refine parts_of_pack hx (hmodel.trans (congrArg Float.Model.pack ?_))
  rw [unpack_eq, hx]
  rcases Nat.eq_zero_or_pos s with rfl | hs
  · rw [Parts.unpacked_zero, Parts.unpacked_zero]
    cases negative <;> rfl
  · rw [Parts.unpacked_pos _ _ hs.ne', Parts.unpacked_pos _ _ hs.ne']
    cases negative <;> rfl

theorem isFinite_neg (hx : x.isFinite = true) : (-x).isFinite = true ∧ grains (-x) = -grains x := by
  obtain ⟨negative, s, k, hparts⟩ := isFinite_iff.1 hx
  have hneg := parts_neg hparts
  refine ⟨isFinite_iff.2 ⟨_, _, _, hneg⟩, ?_⟩
  rw [grains_of_parts hneg, grains_of_parts hparts, signedGrains, signedGrains]
  cases negative <;> simp

/-- What is packed without grains is zero. -/
theorem grains_of_pack_zero {sign : Sign} (hz : z.toModel = .pack (.zero sign)) :
    z.isFinite = true ∧ grains z = 0 := by
  obtain ⟨negative, rfl⟩ : ∃ negative, sign = signOf negative := by
    cases sign
    · exact ⟨true, rfl⟩
    · exact ⟨false, rfl⟩
  have hparts : parts z = .finite negative 0 0 := parts_of_pack parts_zero hz
  refine ⟨isFinite_iff.2 ⟨_, _, _, hparts⟩, ?_⟩
  rw [grains_of_parts hparts, signedGrains]
  cases negative <;> rfl

/-- What is packed from a double has its grains. -/
theorem grains_of_pack (hx : parts x = .finite negative s k)
    (hz : z.toModel = .pack (Parts.finite negative s k).unpacked) :
    z.isFinite = true ∧ grains z = signedGrains negative s k :=
  have hparts := parts_of_pack hx hz
  ⟨isFinite_iff.2 ⟨_, _, _, hparts⟩, grains_of_parts hparts⟩

theorem signedGrains_zero (negative : Bool) (k : Nat) : signedGrains negative 0 k = 0 := by
  cases negative <;> simp [signedGrains]

theorem signedGrains_sign {g : ℤ} {m j : Nat} (h : g.natAbs = m * 2 ^ j) :
    signedGrains (decide (g < 0)) m j = g := by
  rw [signedGrains, ← h]
  by_cases hneg : g < 0
  · rw [decide_eq_true hneg, if_pos rfl]
    omega
  · rw [decide_eq_false hneg, if_neg Bool.false_ne_true]
    omega

/-- A sum is exact if 53 bits are enough for its grains. -/
theorem grains_add (hx : x.isFinite = true) (hy : y.isFinite = true) {m j : Nat}
    (hsum : (grains x + grains y).natAbs = m * 2 ^ j) (hm : m ≤ 2 ^ 53) (hj : j ≤ 2044) :
    (x + y).isFinite = true ∧ grains (x + y) = grains x + grains y := by
  obtain ⟨negative, s, k, hx⟩ := isFinite_iff.1 hx
  obtain ⟨negative', t, l, hy⟩ := isFinite_iff.1 hy
  have hmodel : (x + y).toModel = .pack (.add .binary64 (Parts.finite negative s k).unpacked
      (Parts.finite negative' t l).unpacked) := by
    rw [← hx, ← hy, ← unpack_eq, ← unpack_eq]
    rfl
  rw [grains_of_parts hx, grains_of_parts hy] at hsum ⊢
  rcases Nat.eq_zero_or_pos s with rfl | hs
  · rw [signedGrains_zero, zero_add]
    rw [Parts.unpacked_zero] at hmodel
    rcases Nat.eq_zero_or_pos t with rfl | ht
    · rw [signedGrains_zero]
      rw [Parts.unpacked_zero] at hmodel
      have hsign : ∃ sign, (x + y).toModel = .pack (.zero sign) := by
        rw [hmodel]
        cases negative <;> cases negative' <;> exact ⟨_, rfl⟩
      obtain ⟨sign, hzero⟩ := hsign
      exact grains_of_pack_zero hzero
    · refine grains_of_pack hy (hmodel.trans (congrArg _ ?_))
      rw [Parts.unpacked_pos _ _ ht.ne']
      rfl
  · rcases Nat.eq_zero_or_pos t with rfl | ht
    · rw [signedGrains_zero, add_zero]
      refine grains_of_pack hx (hmodel.trans (congrArg _ ?_))
      rw [Parts.unpacked_zero, Parts.unpacked_pos _ _ hs.ne']
      rfl
    · rcases eq_or_ne (signedGrains negative s k + signedGrains negative' t l) 0 with h0 | hne
      · obtain ⟨M, i, hM, hmodel⟩ := exists_toModel_add hx hy hs.ne' ht.ne'
        rw [h0] at hM ⊢
        obtain rfl : M = 0 := (mul_eq_zero.1 hM).resolve_right (by positivity)
        exact grains_of_pack_zero hmodel
      · rw [add_eq hx hy hs.ne' ht.ne' hne, hsum]
        obtain ⟨hfinite, hg⟩ := grains_ofGrains
          (decide (signedGrains negative s k + signedGrains negative' t l < 0)) hm hj
        exact ⟨hfinite, hg.trans (signedGrains_sign hsum)⟩

end Pack

section Arithmetic

variable {x y : Float} {m n : ℤ}

theorem natAbs_lt_overflow (hn : n.natAbs ≤ 2 ^ 53) : |(n : ℚ)| < overflow := by
  have hpower : 2 ^ 53 + 2 ^ 970 < 2 ^ 1024 := by decide +kernel
  have hle : |(n : ℚ)| ≤ 2 ^ 53 := by
    rw [← Int.cast_abs, Int.abs_eq_natAbs]
    exact_mod_cast hn
  refine hle.trans_lt (lt_sub_iff_add_lt.2 ?_)
  exact_mod_cast hpower

/-- An integer that 53 bits are enough for is its closest double. -/
theorem IsClosest.hasValue (hx : IsClosest x n) (hn : n.natAbs ≤ 2 ^ 53) : HasValue x n := by
  have hfinite := natAbs_lt_overflow hn
  obtain ⟨y, hy, hg⟩ := exists_grains (decide (n * one < 0)) hn (k := 1074) (by decide)
  have hvalue : toRat y = n := by
    rw [toRat_eq_intCast_iff, hg, signedGrains_sign]
    rw [Int.natAbs_mul, Int.natAbs_natCast, one_eq rfl]
  exact ⟨hx.isFinite hfinite,
    le_antisymm (hvalue ▸ hx.le hfinite hy hvalue.ge) (hvalue ▸ hx.ge hfinite hy hvalue.le)⟩

theorem HasValue.neg (hx : HasValue x n) : HasValue (-x) (-n) := by
  obtain ⟨hfinite, hg⟩ := hasValue_iff.1 hx
  obtain ⟨hfinite', hg'⟩ := isFinite_neg hfinite
  exact hasValue_iff.2 ⟨hfinite', by rw [hg', hg, neg_mul]⟩

/-- Sums of integers are exact up to `2 ^ 53`. -/
theorem HasValue.add (hx : HasValue x m) (hy : HasValue y n) (h : (m + n).natAbs ≤ 2 ^ 53) :
    HasValue (x + y) (m + n) := by
  obtain ⟨hfinite, hg⟩ := hasValue_iff.1 hx
  obtain ⟨hfinite', hg'⟩ := hasValue_iff.1 hy
  have hsum : (grains x + grains y).natAbs = (m + n).natAbs * 2 ^ 1074 := by
    rw [hg, hg', ← add_mul, Int.natAbs_mul, Int.natAbs_natCast, one_eq rfl]
  obtain ⟨hfinite'', hg''⟩ := grains_add hfinite hfinite' hsum h (by decide)
  exact hasValue_iff.2 ⟨hfinite'', by rw [hg'', hg, hg', add_mul]⟩

end Arithmetic

end XPath.Number
