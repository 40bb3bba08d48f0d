/-
Doubles compare by their grains.

A finite double is a whole number of grains, its sign apart, and what a comparison of doubles says
is what the comparison of these numbers says.  So the doubles that stand for positions need no
floating-point reasoning.

* `unpack_eq` — taking a double apart into grains agrees with the model of doubles;
* `canonical_parts` — a double has one significand and one shift;
* `beq_iff`, `le_iff` — equality and order of finite doubles;
* `wholePart_pos` — a position is at least one;
* `beq_ofNat_iff` — a double that is equal to a position has it as its whole part.
-/
import Mathlib
import XPath.Evaluation.Candidates

namespace XPath.Number

open Float.Model Float.Model.UnpackedFloat

/-! ### Bits -/

section Bits

variable (b : BitVec Format.binary64.numBits)

theorem toNat_unpackMantissa : (unpackMantissa b).toNat = b.toNat % 2 ^ 63 % 2 ^ 52 := by
  simp only [unpackMantissa, BitVec.toNat_cast, BitVec.extractLsb_toNat, Nat.shiftRight_zero]
  omega

theorem toNat_unpackExponent : (unpackExponent b).toNat = b.toNat % 2 ^ 63 / 2 ^ 52 := by
  simp only [unpackExponent, BitVec.toNat_cast, BitVec.extractLsb_toNat,
    Nat.shiftRight_eq_div_pow]
  omega

theorem toNat_unpackSign : (unpackSign b).toNat = b.toNat / 2 ^ 63 := by
  have : b.toNat < 2 ^ 64 := b.isLt
  simp only [unpackSign, BitVec.toNat_cast, BitVec.extractLsb_toNat, Nat.shiftRight_eq_div_pow]
  omega

end Bits

/-- The sign of the model of doubles. -/
def signOf (negative : Bool) : Sign := if negative then .negative else .positive

/-- What a double is made of, as the model of doubles has it. -/
def Parts.unpacked : Parts → UnpackedFloat
  | .nan => .notANumber
  | .infinite negative => .infinity (signOf negative)
  | .finite negative significand shift =>
    if h : significand = 0 then .zero (signOf negative)
    else .finite (signOf negative) significand (shift - 1074) (Nat.pos_of_ne_zero h)

theorem Parts.unpacked_zero (negative : Bool) (shift : Nat) :
    unpacked (.finite negative 0 shift) = .zero (signOf negative) := by
  simp [unpacked]

theorem Parts.unpacked_pos (negative : Bool) {significand : Nat} (shift : Nat)
    (h : significand ≠ 0) :
    unpacked (.finite negative significand shift) =
      .finite (signOf negative) significand (shift - 1074) (Nat.pos_of_ne_zero h) := dif_neg h

theorem twoTo_eq (k : Nat) : twoTo k = 2 ^ k := rfl

theorem infinityBits_eq : infinityBits = 2047 * 2 ^ 52 := rfl

section Magnitudes

variable (negative : Bool) {magnitude : Nat}

theorem Parts.ofMagnitude_nan (h : 2047 * 2 ^ 52 < magnitude) :
    ofMagnitude negative magnitude = .nan := by
  rw [ofMagnitude, if_pos (by rw [infinityBits_eq]; omega)]

theorem Parts.ofMagnitude_infinite (h : magnitude = 2047 * 2 ^ 52) :
    ofMagnitude negative magnitude = .infinite negative := by
  rw [ofMagnitude, if_neg (by rw [infinityBits_eq]; omega), if_pos (by rw [infinityBits_eq]; omega)]

theorem Parts.ofMagnitude_subnormal (h : magnitude / 2 ^ 52 = 0) :
    ofMagnitude negative magnitude = .finite negative (magnitude % 2 ^ 52) 0 := by
  rw [ofMagnitude, if_neg (by rw [infinityBits_eq]; omega), if_neg (by rw [infinityBits_eq]; omega)]
  exact if_pos h

theorem Parts.ofMagnitude_normal (h : magnitude / 2 ^ 52 ≠ 0) (hlt : magnitude / 2 ^ 52 < 2047) :
    ofMagnitude negative magnitude =
      .finite negative (magnitude % 2 ^ 52 + 2 ^ 52) (magnitude / 2 ^ 52 - 1) := by
  rw [ofMagnitude, if_neg (by rw [infinityBits_eq]; omega), if_neg (by rw [infinityBits_eq]; omega)]
  exact if_neg h

end Magnitudes

theorem sign_ofBitVec (b : BitVec Format.binary64.numBits) :
    Sign.ofBitVec (unpackSign b) = signOf (decide (2 ^ 63 ≤ b.toNat)) := by
  have : b.toNat < 2 ^ 64 := b.isLt
  have hs := toNat_unpackSign b
  unfold Sign.ofBitVec signOf
  by_cases h : 2 ^ 63 ≤ b.toNat
  · rw [if_neg (by rw [← BitVec.toNat_inj, hs]; simp; omega), if_pos (by simpa using h)]
  · rw [if_pos (by rw [← BitVec.toNat_inj, hs]; simp; omega), if_neg (by simpa using h)]

theorem toNat_implicit_append (m : BitVec 52) : (1#1 ++ m).toNat = m.toNat + 2 ^ 52 := by
  rw [BitVec.toNat_append, ← Nat.shiftLeft_add_eq_or_of_lt m.isLt]
  simp [Nat.shiftLeft_eq]
  omega

/-- Taking a bit pattern apart agrees with the model of doubles. -/
theorem unpack_bits (b : BitVec Format.binary64.numBits) :
    UnpackedFloat.unpack Format.binary64 b =
      (Parts.ofMagnitude (2 ^ 63 ≤ b.toNat) (b.toNat % 2 ^ 63)).unpacked := by
  have hm := toNat_unpackMantissa b
  have he := toNat_unpackExponent b
  have hlt : b.toNat < 2 ^ 64 := b.isLt
  have hfull : @unpackExponent Format.binary64 b = -1#11 ↔ b.toNat % 2 ^ 63 / 2 ^ 52 = 2047 := by
    rw [← BitVec.toNat_inj, ← he]
    rfl
  have hzero : @unpackExponent Format.binary64 b = 0#11 ↔ b.toNat % 2 ^ 63 / 2 ^ 52 = 0 := by
    rw [← BitVec.toNat_inj, ← he]
    rfl
  have hnone : @unpackMantissa Format.binary64 b = 0#52 ↔ b.toNat % 2 ^ 63 % 2 ^ 52 = 0 := by
    rw [← BitVec.toNat_inj, ← hm]
    rfl
  have hbias : Format.binary64.exponentBias = 1023 := rfl
  unfold UnpackedFloat.unpack
  dsimp only
  rw [sign_ofBitVec]
  simp only [hfull, hzero, hnone, hbias, he, hm, toNat_implicit_append]
  have hsmall : b.toNat % 2 ^ 63 / 2 ^ 52 < 2048 := by omega
  -- The exponent tells special, subnormal and normal patterns apart, in this order.
  split
  · split
    · rw [Parts.ofMagnitude_infinite _ (by omega)]
      rfl
    · rw [Parts.ofMagnitude_nan _ (by omega)]
      rfl
  · split
    · next hsub =>
      rw [Parts.ofMagnitude_subnormal _ hsub, Parts.unpacked]
      split
      · rfl
      · congr 1
        omega
    · next hsub =>
      rw [Parts.ofMagnitude_normal _ hsub (by omega), Parts.unpacked, dif_neg (by omega)]
      congr 1
      omega

/-- Taking a double apart agrees with the model of doubles. -/
theorem unpack_eq (x : Float) : x.toModel.unpack = (parts x).unpacked :=
  unpack_bits x.toBits.toBitVec

theorem toNat_packComponents (sign : Sign) (e : BitVec 11) (m : BitVec 52) :
    (packComponents Format.binary64 sign e m).toNat =
      sign.toBitVec.toNat * 2 ^ 63 + e.toNat * 2 ^ 52 + m.toNat := by
  unfold packComponents
  rw [BitVec.toNat_append, BitVec.toNat_append, ← Nat.shiftLeft_add_eq_or_of_lt m.isLt,
    ← Nat.shiftLeft_add_eq_or_of_lt e.isLt, Nat.shiftLeft_eq, Nat.shiftLeft_eq]
  ring

theorem toNat_signOf (negative : Bool) :
    (signOf negative).toBitVec.toNat = if negative then 1 else 0 := by
  cases negative <;> rfl

/-- Putting a number together from its parts gives back its bit pattern. -/
theorem toNat_pack (negative : Bool) {magnitude : Nat} (h : magnitude ≤ 2047 * 2 ^ 52) :
    (UnpackedFloat.pack Format.binary64 (Parts.ofMagnitude negative magnitude).unpacked).toNat =
      (if negative then 2 ^ 63 else 0) + magnitude := by
  have hsign : (signOf negative).toBitVec.toNat * 2 ^ 63 = if negative then 2 ^ 63 else 0 := by
    rw [toNat_signOf]
    cases negative <;> rfl
  have hbias : Format.binary64.exponentBias = 1023 := rfl
  have hbits : Format.binary64.mantissaBits = 53 := rfl
  rcases Nat.lt_or_eq_of_le h with hlt | rfl
  · by_cases hsub : magnitude / 2 ^ 52 = 0
    · -- A subnormal number has fewer than 53 bits, so it is packed without an exponent.
      rw [Parts.ofMagnitude_subnormal _ hsub, Nat.mod_eq_of_lt (by omega)]
      rcases Nat.eq_zero_or_pos magnitude with rfl | hpos
      · rw [Parts.unpacked_zero]
        show (packedZero Format.binary64 (signOf negative)).toNat = _
        unfold packedZero
        rw [toNat_packComponents, hsign]
        rfl
      · have hlog : magnitude.log2 < 52 := (Nat.log2_lt (by omega)).2 (by omega)
        rw [Parts.unpacked_pos _ _ (by omega), UnpackedFloat.pack, if_neg (by rw [hbias]; simp),
          if_neg (by rw [hbits]; omega), toNat_packComponents, hsign]
        simp
        omega
    · have hlog : (magnitude % 2 ^ 52 + 2 ^ 52).log2 = 52 := by
        rw [Nat.log2_eq_iff (by omega)]
        omega
      rw [Parts.ofMagnitude_normal _ hsub (by omega), Parts.unpacked_pos _ _ (by omega),
        UnpackedFloat.pack, if_neg (by rw [hbias]; simp; omega), if_pos (by rw [hbits, hlog]),
        toNat_packComponents, hsign, hbias]
      simp
      omega
  · rw [Parts.ofMagnitude_infinite _ rfl]
    show (packedInfinity Format.binary64 (signOf negative)).toNat = _
    unfold packedInfinity
    rw [toNat_packComponents, hsign]
    rfl

/-- The bits of a number made from a bit pattern. -/
theorem toNat_ofMagnitude (negative : Bool) {magnitude : Nat} (h : magnitude ≤ 2047 * 2 ^ 52) :
    (ofMagnitude negative magnitude).toBits.toNat =
      (if negative then 2 ^ 63 else 0) + magnitude := by
  have hv : (if negative then twoTo 63 + magnitude else magnitude) =
      (if negative then 2 ^ 63 else 0) + magnitude := by
    cases negative <;> simp [twoTo_eq]
  have hlt : (if negative then 2 ^ 63 else 0) + magnitude < 2 ^ 64 := by
    cases negative <;> simp <;> omega
  have hsign : decide (2 ^ 63 ≤ (if negative then 2 ^ 63 else 0) + magnitude) = negative := by
    cases negative <;> simp
    omega
  have hrest : ((if negative then 2 ^ 63 else 0) + magnitude) % 2 ^ 63 = magnitude := by
    cases negative <;> simp <;> omega
  show (UnpackedFloat.pack Format.binary64 (UnpackedFloat.unpack Format.binary64
    (BitVec.ofNat 64 (if negative then twoTo 63 + magnitude else magnitude)))).toNat = _
  rw [unpack_bits, hv, show @BitVec.toNat Format.binary64.numBits (BitVec.ofNat 64 _) = _ from
    Nat.mod_eq_of_lt hlt, hsign, hrest, toNat_pack negative h]

/-- A number made from a bit pattern has the parts of that pattern. -/
theorem parts_ofMagnitude (negative : Bool) {magnitude : Nat} (h : magnitude ≤ 2047 * 2 ^ 52) :
    parts (ofMagnitude negative magnitude) = Parts.ofMagnitude negative magnitude := by
  have hsign : decide (2 ^ 63 ≤ (if negative then 2 ^ 63 else 0) + magnitude) = negative := by
    cases negative <;> simp
    omega
  have hrest : ((if negative then 2 ^ 63 else 0) + magnitude) % 2 ^ 63 = magnitude := by
    cases negative <;> simp <;> omega
  unfold parts
  dsimp only
  rw [toNat_ofMagnitude negative h, twoTo_eq, hsign, hrest]

/-! ### Order -/

/-- A double has one significand and one shift: the significand fits into 53 bits, and only numbers
that are not shifted need less. -/
theorem Parts.canonical_ofMagnitude {sign negative : Bool} {magnitude significand shift : Nat}
    (h : ofMagnitude sign magnitude = .finite negative significand shift) :
    significand < 2 ^ 53 ∧ (shift ≠ 0 → 2 ^ 52 ≤ significand) := by
  rcases Nat.lt_trichotomy magnitude (2047 * 2 ^ 52) with hlt | heq | hgt
  · by_cases hsub : magnitude / 2 ^ 52 = 0
    · rw [ofMagnitude_subnormal _ hsub] at h
      cases h
      omega
    · rw [ofMagnitude_normal _ hsub (by omega)] at h
      cases h
      omega
  · rw [ofMagnitude_infinite _ heq] at h
    cases h
  · rw [ofMagnitude_nan _ hgt] at h
    cases h

theorem canonical_parts {x : Float} {negative : Bool} {significand shift : Nat}
    (h : parts x = .finite negative significand shift) :
    significand < 2 ^ 53 ∧ (shift ≠ 0 → 2 ^ 52 ≤ significand) :=
  Parts.canonical_ofMagnitude h

/-- What is shifted further is larger. -/
theorem grains_lt {s k t l : Nat} (hs : s < 2 ^ 53) (ht : l ≠ 0 → 2 ^ 52 ≤ t) (h : k < l) :
    s * 2 ^ k < t * 2 ^ l := by
  obtain ⟨d, rfl⟩ := Nat.exists_eq_add_of_lt h
  have ht : 2 ^ 52 ≤ t := ht (by omega)
  calc s * 2 ^ k < 2 ^ 53 * 2 ^ k := Nat.mul_lt_mul_of_pos_right hs (by positivity)
    _ ≤ 2 ^ 52 * 2 ^ (k + d + 1) := by
      rw [← pow_add, ← pow_add]
      exact Nat.pow_le_pow_right (by omega) (by omega)
    _ ≤ t * 2 ^ (k + d + 1) := Nat.mul_le_mul_right _ ht

/-- Comparing shifts before significands compares grains. -/
theorem compare_grains {s k t l : Nat} (hs : s < 2 ^ 53) (hs' : k ≠ 0 → 2 ^ 52 ≤ s)
    (ht : t < 2 ^ 53) (ht' : l ≠ 0 → 2 ^ 52 ≤ t) :
    (compare ((k : Int) - 1074) (l - 1074)).then (compare s t) =
      compare (s * 2 ^ k) (t * 2 ^ l) := by
  rcases Nat.lt_trichotomy k l with h | rfl | h
  · rw [show compare ((k : Int) - 1074) (l - 1074) = .lt from compare_lt_iff_lt.2 (by omega),
      compare_lt_iff_lt.2 (grains_lt hs ht' h)]
    rfl
  · rw [show compare ((k : Int) - 1074) (k - 1074) = .eq from compare_eq_iff_eq.2 rfl]
    show compare s t = _
    rcases Nat.lt_trichotomy s t with h | rfl | h
    · rw [compare_lt_iff_lt.2 h,
        compare_lt_iff_lt.2 (Nat.mul_lt_mul_of_pos_right h (by positivity))]
    · rw [compare_eq_iff_eq.2 rfl, compare_eq_iff_eq.2 rfl]
    · rw [compare_gt_iff_gt.2 h,
        compare_gt_iff_gt.2 (Nat.mul_lt_mul_of_pos_right h (by positivity))]
  · rw [show compare ((k : Int) - 1074) (l - 1074) = .gt from compare_gt_iff_gt.2 (by omega),
      compare_gt_iff_gt.2 (grains_lt ht hs' h)]
    rfl

theorem compare_cast (a b : Nat) : compare (a : Int) b = compare a b := by
  rcases Nat.lt_trichotomy a b with h | rfl | h
  · rw [compare_lt_iff_lt.2 h, compare_lt_iff_lt.2 (by omega)]
  · rw [compare_eq_iff_eq.2 rfl, compare_eq_iff_eq.2 rfl]
  · rw [compare_gt_iff_gt.2 h, compare_gt_iff_gt.2 (by omega)]

theorem compare_neg_cast (a b : Nat) : compare (-(a : Int)) (-b) = (compare a b).swap := by
  rcases Nat.lt_trichotomy a b with h | rfl | h
  · rw [compare_lt_iff_lt.2 h, compare_gt_iff_gt.2 (by omega)]
    rfl
  · rw [compare_eq_iff_eq.2 rfl, compare_eq_iff_eq.2 rfl]
    rfl
  · rw [compare_gt_iff_gt.2 h, compare_lt_iff_lt.2 (by omega)]
    rfl

/-- The grains of a finite double, with its sign. -/
def signedGrains (negative : Bool) (significand shift : Nat) : Int :=
  if negative then -(significand * 2 ^ shift : Nat) else (significand * 2 ^ shift : Nat)

theorem signedGrains_false (s k : Nat) : signedGrains false s k = (s * 2 ^ k : Nat) := rfl

theorem signedGrains_true (s k : Nat) : signedGrains true s k = -(s * 2 ^ k : Nat) := rfl

section Finite

variable {x y : Float} {negative negative' : Bool} {s k t l : Nat}
  (hx : parts x = .finite negative s k) (hy : parts y = .finite negative' t l)

include hx hy

/-- Finite doubles compare as their grains do. -/
theorem compare_unpack :
    x.toModel.unpack.compare y.toModel.unpack =
      some (compare (signedGrains negative s k) (signedGrains negative' t l)) := by
  obtain ⟨hs, hs'⟩ := canonical_parts hx
  obtain ⟨ht, ht'⟩ := canonical_parts hy
  have hc := compare_grains hs hs' ht ht'
  rw [unpack_eq, unpack_eq, hx, hy]
  unfold signedGrains
  -- What follows depends on the grains only through the comparison and whether they are none.
  have hG : s = 0 ↔ s * 2 ^ k = 0 := by simp
  have hH : t = 0 ↔ t * 2 ^ l = 0 := by simp
  generalize s * 2 ^ k = G at hc hG ⊢
  generalize t * 2 ^ l = H at hc hH ⊢
  have lt : ∀ {a b : Int}, a < b → some Ordering.lt = some (compare a b) := fun h => by
    rw [compare_lt_iff_lt.2 h]
  have gt : ∀ {a b : Int}, b < a → some Ordering.gt = some (compare a b) := fun h => by
    rw [compare_gt_iff_gt.2 h]
  rcases Nat.eq_zero_or_pos s with rfl | hs0 <;> rcases Nat.eq_zero_or_pos t with rfl | ht0
  · obtain rfl := hG.1 rfl
    obtain rfl := hH.1 rfl
    rw [Parts.unpacked_zero, Parts.unpacked_zero]
    cases negative <;> cases negative' <;> rfl
  · obtain rfl := hG.1 rfl
    rw [Parts.unpacked_zero, Parts.unpacked_pos _ _ (by omega)]
    cases negative <;> cases negative'
    · exact lt (by simp; omega)
    · exact gt (by simp; omega)
    · exact lt (by simp; omega)
    · exact gt (by simp; omega)
  · obtain rfl := hH.1 rfl
    rw [Parts.unpacked_pos _ _ (by omega), Parts.unpacked_zero]
    cases negative <;> cases negative'
    · exact gt (by simp; omega)
    · exact gt (by simp; omega)
    · exact lt (by simp; omega)
    · exact lt (by simp; omega)
  · rw [Parts.unpacked_pos _ _ (by omega), Parts.unpacked_pos _ _ (by omega)]
    cases negative <;> cases negative'
    · show some ((compare ((k : Int) - 1074) (l - 1074)).then (compare s t)) =
        some (compare (G : Int) H)
      rw [hc, compare_cast]
    · exact gt (by simp; omega)
    · exact lt (by simp; omega)
    · show some ((compare ((k : Int) - 1074) (l - 1074)).then (compare s t)).swap =
        some (compare (-(G : Int)) (-(H : Int)))
      rw [hc, compare_neg_cast]

/-- Finite doubles are equal if their grains are. -/
theorem beq_iff : (x == y) = true ↔ signedGrains negative s k = signedGrains negative' t l := by
  show (x.toModel.unpack.compare y.toModel.unpack == some .eq) = true ↔ _
  rw [compare_unpack hx hy, beq_iff_eq, Option.some.injEq, compare_eq_iff_eq]

/-- Finite doubles are in order if their grains are. -/
theorem le_iff : x ≤ y ↔ signedGrains negative s k ≤ signedGrains negative' t l := by
  show decide ((x.toModel.unpack.compare y.toModel.unpack).any (·.isLE) = true) = true ↔ _
  rw [decide_eq_true_iff, compare_unpack hx hy, Option.any_some]
  exact Int.isLE_compare

end Finite

/-- Only a finite double is equal to a finite one. -/
theorem finite_of_beq {x y : Float} {negative : Bool} {t l : Nat} (h : (x == y) = true)
    (hy : parts y = .finite negative t l) : ∃ sign s k, parts x = .finite sign s k := by
  change (x.toModel.unpack.compare y.toModel.unpack == some .eq) = true at h
  rw [unpack_eq, unpack_eq, hy] at h
  cases hx : parts x with
  | finite sign s k => exact ⟨sign, s, k, rfl⟩
  | nan => rw [hx] at h; cases h
  | infinite sign =>
    rw [hx] at h
    rcases Nat.eq_zero_or_pos t with rfl | ht
    · rw [Parts.unpacked_zero] at h
      cases sign <;> cases negative <;> cases h
    · rw [Parts.unpacked_pos _ _ (by omega)] at h
      cases sign <;> cases negative <;> cases h

/-! ### Positions -/

/-- A number of grains that has 53 significant bits is not rounded. -/
theorem nearestMagnitude_exact {q k : Nat} (hq : 2 ^ 52 ≤ q) (hq' : q < 2 ^ 53) (hk : k ≤ 2045) :
    nearestMagnitude (q * 2 ^ k) 1 = k * 2 ^ 52 + q := by
  have hpos : 0 < 2 ^ k := by positivity
  have hlog : (q * 2 ^ k).log2 = 52 + k := by
    rw [Nat.log2_eq_iff (by positivity), pow_add, show 52 + k + 1 = 53 + k by omega, pow_add]
    exact ⟨Nat.mul_le_mul_right _ hq, Nat.mul_lt_mul_of_pos_right hq' hpos⟩
  unfold nearestMagnitude
  rw [Nat.div_one, hlog, show 52 + k - 52 = k by omega]
  dsimp only
  rw [one_mul, twoTo_eq k, Nat.mul_div_cancel _ hpos, Nat.mul_mod_left, twoTo_eq, infinityBits_eq]
  have hne : (2 ^ k == 2 * 0) = false := by simp
  rw [hne]
  simp
  omega

theorem parts_ofGrains (negative : Bool) {q k : Nat} (hq : 2 ^ 52 ≤ q) (hq' : q < 2 ^ 53)
    (hk : k ≤ 2045) : parts (ofGrains negative (q * 2 ^ k) 1) = .finite negative q k := by
  rw [ofGrains, nearestMagnitude_exact hq hq' hk, parts_ofMagnitude _ (by omega),
    Parts.ofMagnitude_normal _ (by omega) (by omega)]
  congr 1 <;> omega

theorem one_eq {k : Nat} (h : k = 1074) : one = 2 ^ k := by rw [one, twoTo_eq, h]

theorem one_pos : 0 < one := by
  rw [one_eq rfl]
  positivity

/-- Natural numbers up to `2 ^ 53` are doubles. -/
theorem parts_ofNat {p : Nat} (h : 1 ≤ p) (hp : p ≤ 2 ^ 53) :
    ∃ q k, parts (ofNat p) = .finite false q k ∧ q * 2 ^ k = p * one := by
  obtain ⟨q, k, hq, hq', hk, heq⟩ :
      ∃ q k, 2 ^ 52 ≤ q ∧ q < 2 ^ 53 ∧ k ≤ 2045 ∧ q * 2 ^ k = p * one := by
    have hlog := Nat.lt_log2_self (n := p)
    have hlog' := Nat.log2_self_le (n := p) (by omega)
    generalize p.log2 = L at hlog hlog'
    rcases Nat.lt_or_eq_of_le hp with hlt | rfl
    · -- Shifting the leading bit to place 52 fills the significand.
      have hL : L ≤ 52 := by
        by_contra hL
        have : 2 ^ 53 ≤ 2 ^ L := Nat.pow_le_pow_right (by omega) (by omega)
        omega
      refine ⟨p * 2 ^ (52 - L), L + 1022, ?_, ?_, by omega, ?_⟩
      · calc 2 ^ 52 = 2 ^ L * 2 ^ (52 - L) := by rw [← pow_add, Nat.add_sub_cancel' hL]
          _ ≤ p * 2 ^ (52 - L) := Nat.mul_le_mul_right _ hlog'
      · calc p * 2 ^ (52 - L) < 2 ^ (L + 1) * 2 ^ (52 - L) :=
              Nat.mul_lt_mul_of_pos_right hlog (by positivity)
          _ = 2 ^ 53 := by rw [← pow_add, show L + 1 + (52 - L) = 53 by omega]
      · rw [mul_assoc, ← pow_add, one_eq (show 52 - L + (L + 1022) = 1074 by omega)]
    · exact ⟨2 ^ 52, 1075, le_refl _, by omega, by omega, by
        rw [one_eq rfl, ← pow_add, ← pow_add]⟩
  refine ⟨q, k, ?_, heq⟩
  rw [ofNat, ofRatio, ← heq]
  exact parts_ofGrains false hq hq' hk

theorem parts_one : parts 1 = .finite false (2 ^ 52) 1022 := rfl

/-- A position is a whole number of ones, and not zero. -/
theorem isPosition_iff {x : Float} :
    Stage.isPosition x = true ↔
      ∃ s k, parts x = .finite false s k ∧ s * 2 ^ k = wholePart x * one ∧ 1 ≤ wholePart x := by
  have hone : signedGrains false (2 ^ 52) 1022 = (one : Int) := by
    rw [signedGrains_false, ← pow_add, ← one_eq rfl]
  have hpos := one_pos
  unfold Stage.isPosition isInteger wholePart
  cases hx : parts x with
  | nan => simp
  | infinite negative => simp
  | finite negative s k =>
    have hle : 1 ≤ x ↔ (one : Int) ≤ signedGrains negative s k := by
      rw [← hone]
      exact le_iff parts_one hx
    dsimp only
    rw [Bool.and_eq_true, beq_iff_eq, decide_eq_true_iff, hle, twoTo_eq]
    cases negative with
    | true =>
      rw [signedGrains_true]
      constructor
      · rintro ⟨-, h⟩
        omega
      · rintro ⟨_, _, h, -⟩
        cases h
    | false =>
      rw [signedGrains_false, Int.ofNat_le]
      constructor
      · rintro ⟨hmod, h⟩
        exact ⟨s, k, rfl, (Nat.div_mul_cancel (Nat.dvd_of_mod_eq_zero hmod)).symm,
          (Nat.one_le_div_iff hpos).2 h⟩
      · rintro ⟨_, _, ⟨⟩, h, hle⟩
        exact ⟨by rw [h, Nat.mul_mod_left], (Nat.one_le_div_iff hpos).1 hle⟩

/-- A position is at least one. -/
theorem wholePart_pos {x : Float} (h : Stage.isPosition x = true) : 1 ≤ wholePart x := by
  obtain ⟨_, _, _, _, hle⟩ := isPosition_iff.1 h
  exact hle

/-- A double is equal to a position if it is one, and that one. -/
theorem beq_ofNat_iff {x : Float} {p : Nat} (h : 1 ≤ p) (hp : p ≤ 2 ^ 53) :
    (x == ofNat p) = true ↔ Stage.isPosition x = true ∧ wholePart x = p := by
  obtain ⟨q, l, hy, hq⟩ := parts_ofNat h hp
  have hpos := one_pos
  have whole : ∀ {s k}, parts x = .finite false s k → wholePart x = s * 2 ^ k / one :=
    fun hx => by
      rw [wholePart, hx]
      rfl
  constructor
  · intro heq
    obtain ⟨negative, s, k, hx⟩ := finite_of_beq heq hy
    have hg := (beq_iff hx hy).1 heq
    rw [signedGrains_false, hq] at hg
    -- A negative double has no positive number of grains.
    cases negative with
    | true =>
      rw [signedGrains_true] at hg
      have : 0 < p * one := Nat.mul_pos h hpos
      omega
    | false =>
      rw [signedGrains_false, Int.ofNat_inj] at hg
      have hwhole : wholePart x = p := by rw [whole hx, hg, Nat.mul_div_cancel _ hpos]
      exact ⟨isPosition_iff.2 ⟨s, k, hx, by rw [hwhole, hg], by rw [hwhole]; exact h⟩, hwhole⟩
  · rintro ⟨hx, rfl⟩
    obtain ⟨s, k, hx, hg, -⟩ := isPosition_iff.1 hx
    rw [beq_iff hx hy, signedGrains_false, signedGrains_false, hg, hq]

/-! ### Symmetry -/

theorem compare_swap (a b : UnpackedFloat) : b.compare a = (a.compare b).map Ordering.swap := by
  rcases a with ⟨_ | _⟩ | _ | _ | ⟨_ | _, m, e, _⟩ <;>
  rcases b with ⟨_ | _⟩ | _ | _ | ⟨_ | _, n, f, _⟩ <;>
  first
  | rfl
  | simp [UnpackedFloat.compare, Ordering.swap_then, Nat.compare_swap, Int.compare_swap]

/-- Equality of doubles does not depend on the order of them. -/
theorem beq_comm (x y : Float) : (x == y) = (y == x) := by
  show (x.toModel.unpack.compare y.toModel.unpack == some .eq) =
    (y.toModel.unpack.compare x.toModel.unpack == some .eq)
  rw [compare_swap x.toModel.unpack y.toModel.unpack]
  rcases x.toModel.unpack.compare y.toModel.unpack with _ | _ | _ | _ <;> rfl

end XPath.Number
