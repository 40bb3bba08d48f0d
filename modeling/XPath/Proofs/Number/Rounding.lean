/-
Rounding to whole numbers.

Rounding adds one half and takes the floor.  The sum is a double that has to be rounded itself,
and it has the whole part of the exact sum but for two kinds of doubles: the last one below one
half, whose sum is rounded to one, and the odd numbers where doubles are the whole numbers, whose
sum lies half way to the next.

* `Overshoots` — the doubles of these two kinds;
* `grains_add_half` — one half more has the whole part of the exact sum for all others;
* `grains_round`, `grains_round_of_overshoots` — what a finite double is rounded to;
* `round_mono` — rounding keeps the order of doubles;
* `round_closest` — a finite double is rounded to the closest whole number, if it is not moved too
  far.
-/
import XPath.Proofs.Number.Whole
import XPath.Proofs.Number.Sums

namespace XPath.Number

/-! ### One half more -/

theorem parts_half : parts 0.5 = .finite false (2 ^ 52) 1021 := rfl

theorem signedGrains_half : signedGrains false (2 ^ 52) 1021 = half := by
  rw [signedGrains_false, ← pow_add, half_eq rfl]

section Half

variable {x : Float} {s k : Nat}

theorem add_half_of_pos (hx : parts x = .finite false s k) (hs : s ≠ 0) :
    x + 0.5 = ofGrains false (s * 2 ^ k + half) 1 := by
  have hsum : signedGrains false s k + signedGrains false (2 ^ 52) 1021 =
      (s * 2 ^ k + half : Nat) := by
    rw [signedGrains_half, signedGrains_false, Nat.cast_add]
  have hpos := half_pos
  rw [add_eq hx parts_half hs (by decide) (by rw [hsum]; omega), hsum, Int.natAbs_natCast,
    decide_eq_false (by omega)]

theorem add_half_of_neg (hx : parts x = .finite true s k) (hlt : half < s * 2 ^ k) :
    x + 0.5 = ofGrains true (s * 2 ^ k - half) 1 := by
  have hsum : signedGrains true s k + signedGrains false (2 ^ 52) 1021 =
      -(s * 2 ^ k - half : Nat) := by
    rw [signedGrains_half, signedGrains_true, Nat.cast_sub hlt.le]
    ring
  have hs : s ≠ 0 := by
    rintro rfl
    omega
  rw [add_eq hx parts_half hs (by decide) (by rw [hsum]; omega), hsum, Int.natAbs_neg,
    Int.natAbs_natCast, decide_eq_true (by omega)]

/-- Grains of a double with a fraction that add up to a half with what is left. -/
theorem half_eq_steps (hk : k ≤ 1073) : half = 2 ^ (1073 - k) * 2 ^ k := by
  rw [← pow_add, Nat.sub_add_cancel hk, half_eq rfl]

/-- Towards zero nothing is rounded. -/
theorem grains_add_half_of_neg (hx : parts x = .finite true s k) (hk : k ≤ 1073)
    (hlt : half < s * 2 ^ k) :
    (x + 0.5).isFinite = true ∧ grains (x + 0.5) = grains x + half := by
  obtain ⟨hs, -⟩ := canonical_parts hx
  have hsub : s * 2 ^ k - half = (s - 2 ^ (1073 - k)) * 2 ^ k := by
    rw [half_eq_steps hk, Nat.sub_mul]
  obtain ⟨hfinite, hg⟩ := grains_ofGrains true (m := s - 2 ^ (1073 - k)) (k := k)
    ((Nat.sub_le _ _).trans hs.le) (by omega)
  rw [add_half_of_neg hx hlt, hsub, grains_of_parts hx]
  refine ⟨hfinite, hg.trans ?_⟩
  rw [signedGrains_true, signedGrains_true, ← hsub, Nat.cast_sub hlt.le]
  ring

/-- From one half on a sum is exact, or it passes a power of two and is rounded between whole
numbers. -/
theorem grains_add_half_of_pos (hx : parts x = .finite false s k) (hk : 1021 ≤ k)
    (hk' : k ≤ 1073) :
    (x + 0.5).isFinite = true ∧ grains (x + 0.5) / one = (grains x + half) / one := by
  obtain ⟨hs, hcanonical⟩ := canonical_parts hx
  have hs52 := hcanonical (by omega)
  rw [add_half_of_pos hx (by omega), grains_of_parts hx, signedGrains_false]
  have hsteps : s * 2 ^ k + half = (s + 2 ^ (1073 - k)) * 2 ^ k := by
    rw [half_eq_steps hk', add_mul]
  rcases Nat.lt_or_ge (2 ^ 53) (s + 2 ^ (1073 - k)) with hlarge | hexact
  · have hk72 : k ≤ 1072 := by
      by_contra hk72
      obtain rfl : k = 1073 := by omega
      omega
    obtain ⟨c, hc⟩ : ∃ c, c = 2 ^ (k - 1021) := ⟨_, rfl⟩
    have hc51 : c ≤ 2 ^ 51 := by
      rw [hc]
      exact pow_le_pow_right₀ one_le_two (by omega)
    have hpower : 2 ^ 53 * 2 ^ k = c * one := by
      rw [hc, one_eq rfl, ← pow_add, ← pow_add, show k - 1021 + 1074 = 53 + k by omega]
    have hlow : c * one < s * 2 ^ k + half := by
      rw [hsteps, ← hpower]
      exact Nat.mul_lt_mul_of_pos_right hlarge (pow_pos two_pos k)
    have hhigh : s * 2 ^ k < c * one := by
      rw [← hpower]
      exact Nat.mul_lt_mul_of_pos_right hs (pow_pos two_pos k)
    have hhalf : (2 * c + 1) * half = c * one + half := by
      rw [one_eq_two_halves]
      ring
    have hsum : s * 2 ^ k + half ≤ (2 * c + 1) * 2 ^ 1073 := by
      rw [← half_eq rfl]
      omega
    have htop : (2 * c + 1) * 2 ^ 1073 ≤ 2 ^ 53 * 2 ^ 1073 := Nat.mul_le_mul_right _ (by omega)
    obtain ⟨hfinite, hle⟩ := grains_ofGrains_le (by omega) (by decide) hsum
    have hge := le_grains_ofGrains (m := 2 ^ 53) (k := k) le_rfl (by omega) (by decide)
      (hsum.trans htop) (by rw [hpower]; exact hlow.le)
    rw [hpower] at hge
    rw [← half_eq rfl, hhalf] at hle
    refine ⟨hfinite, ?_⟩
    rw [ediv_one_eq_natCast hge hle, ← Nat.cast_add, ediv_one_eq_natCast
      (Int.ofNat_le.2 hlow.le) (Int.ofNat_le.2 (Nat.add_le_add_right hhigh.le half))]
  · obtain ⟨hfinite, hg⟩ := grains_ofGrains false (k := k) hexact (by omega)
    rw [hsteps]
    refine ⟨hfinite, ?_⟩
    rw [hg, signedGrains_false, ← hsteps, Nat.cast_add]

theorem half_eq_last : half = 2 ^ 53 * 2 ^ 1020 := by rw [half_eq rfl, ← pow_add]

/-- Below one half only the last double is rounded up to one. -/
theorem grains_add_half_of_small (hx : parts x = .finite false s k) (hs : s ≠ 0) (hk : k ≤ 1020)
    (hne : s * 2 ^ k ≠ (2 ^ 53 - 1) * 2 ^ 1020) :
    (x + 0.5).isFinite = true ∧ grains (x + 0.5) / one = (grains x + half) / one := by
  obtain ⟨hs53, hcanonical⟩ := canonical_parts hx
  have hhalf := half_eq_last
  have htop : s * 2 ^ k ≤ 2 ^ 53 * 2 ^ 1020 - 2 ^ 1020 := by
    rw [← Nat.sub_one_mul]
    exact Nat.mul_le_mul (by omega) (pow_le_pow_right₀ one_le_two hk)
  have hgap := grains_le_or_le (m := 2 ^ 53 - 2) (k := 1020) (by omega) hs53 hcanonical
  have hsum : s * 2 ^ k + half ≤ (2 ^ 53 - 1) * 2 ^ 1021 := by
    rw [pow_succ 2 1020]
    generalize 2 ^ 1020 = P at *
    omega
  have hlast : (2 ^ 53 - 1) * 2 ^ 1021 < one := by
    rw [one_eq_two_halves, hhalf, pow_succ 2 1020]
    have hpos : 0 < 2 ^ 1020 := by positivity
    generalize 2 ^ 1020 = P at *
    omega
  have hbound : (2 ^ 53 - 1) * 2 ^ 1021 ≤ 2 ^ 53 * 2 ^ 1021 :=
    Nat.mul_le_mul_right _ (Nat.sub_le _ 1)
  obtain ⟨hfinite, hle⟩ := grains_ofGrains_le (by omega) (by omega) hsum
  have hge := le_grains_ofGrains (Nat.zero_le _) (Nat.zero_le _) (by omega) (hsum.trans hbound)
    (show 0 * 2 ^ 0 ≤ s * 2 ^ k + half by omega)
  rw [add_half_of_pos hx hs, grains_of_parts hx, signedGrains_false]
  refine ⟨hfinite, ?_⟩
  rw [Int.ediv_eq_zero_of_lt, Int.ediv_eq_zero_of_lt]
  · omega
  · exact_mod_cast hsum.trans_lt hlast
  · exact_mod_cast hge
  · exact hle.trans_lt (by exact_mod_cast hlast)

theorem four_halves_le (hk : 1074 < k) : 4 * half ≤ 2 ^ k := by
  rw [half_eq rfl, show 4 = 2 ^ 2 from rfl, ← pow_add]
  exact pow_le_pow_right₀ one_le_two hk

theorem two_halves_eq (hk : k = 1074) : 2 ^ k = 2 * half := by rw [← one_eq_two_halves, one_eq hk]

/-- From `2 ^ 52` on one half is at most half of a step. -/
theorem half_le_of_large (h : 1074 < k ∨ k = 1074 ∧ s % 2 = 0) :
    4 * half ≤ 2 * 2 ^ k ∧ (s % 2 = 1 → 4 * half < 2 * 2 ^ k) := by
  have hpos := half_pos
  rcases h with h | ⟨hk, heven⟩
  · have := four_halves_le h
    omega
  · rw [two_halves_eq hk]
    omega

/-- One half is at most half of a step from `2 ^ 52` on, and half of a step is rounded to an even
place. -/
theorem add_half_of_large_pos (hx : parts x = .finite false s k)
    (h : 1074 < k ∨ k = 1074 ∧ s % 2 = 0) : x + 0.5 = x := by
  obtain ⟨hs, hcanonical⟩ := canonical_parts hx
  have hs52 := hcanonical (by omega)
  have hpos := half_pos
  obtain ⟨hhalf, hstrict⟩ := half_le_of_large h
  have hnearest : nearestMagnitude (s * 2 ^ k + half) 1 = k * 2 ^ 52 + s := by
    have hhigh : (4 * s + 2) * 2 ^ k * 1 = 4 * (s * 2 ^ k) + 2 * 2 ^ k := by ring
    have hlow : ∀ below, (4 * s - below) * 2 ^ k * 1 ≤ 4 * (s * 2 ^ k) := fun below => by
      rw [mul_one, ← mul_assoc]
      exact Nat.mul_le_mul_right _ (Nat.sub_le _ _)
    have hlow := hlow (if s = twoTo 52 ∧ 0 < k then 1 else 2)
    refine Decimal.Neighbourhood.nearest_of_between Nat.one_pos hs hcanonical (magnitude_lt hx)
      ?_ ?_ ?_ <;> dsimp only [Decimal.Neighbourhood.of] <;> rw [twoTo_eq k]
    · omega
    · omega
    · rw [beq_eq_false_iff_ne]
      omega
  rw [add_half_of_pos hx (by omega), ofGrains, hnearest, ofMagnitude_of_parts hx]

/-- The same below zero, where steps are half as long from a power of two on. -/
theorem add_half_of_large_neg (hx : parts x = .finite true s k)
    (h : 1074 < k ∨ k = 1074 ∧ s % 2 = 0) (hne : ¬ (s = 2 ^ 52 ∧ k = 1074)) : x + 0.5 = x := by
  obtain ⟨hs, hcanonical⟩ := canonical_parts hx
  have hs52 := hcanonical (by omega)
  have hpos := half_pos
  obtain ⟨hhalf, hstrict⟩ := half_le_of_large h
  have hlt : half < s * 2 ^ k := by
    have : 1 * 2 ^ k ≤ s * 2 ^ k := Nat.mul_le_mul_right _ (by omega)
    omega
  have hnearest : nearestMagnitude (s * 2 ^ k - half) 1 = k * 2 ^ 52 + s := by
    have hhigh : (4 * s + 2) * 2 ^ k * 1 = 4 * (s * 2 ^ k) + 2 * 2 ^ k := by ring
    have hlow : ∀ below, (4 * s - below) * 2 ^ k * 1 = 4 * (s * 2 ^ k) - below * 2 ^ k :=
      fun below => by rw [mul_one, Nat.sub_mul, mul_assoc]
    refine Decimal.Neighbourhood.nearest_of_between Nat.one_pos hs hcanonical (magnitude_lt hx)
      ?_ ?_ ?_ <;> dsimp only [Decimal.Neighbourhood.of] <;> rw [twoTo_eq k]
    · rw [hlow, twoTo_eq]
      split
      · next hpower =>
        have := four_halves_le (k := k) (by omega)
        omega
      · omega
    · omega
    · rw [beq_eq_false_iff_ne]
      intro hodd
      rw [hlow, if_neg (by rw [twoTo_eq]; omega)]
      omega
  rw [add_half_of_neg hx hlt, ofGrains, hnearest, ofMagnitude_of_parts hx]

/-- Where doubles are the whole numbers, an odd one is moved to the next. -/
theorem grains_add_half_of_odd {negative : Bool} (hx : parts x = .finite negative s k)
    (hk : k = 1074) (hodd : s % 2 = 1) :
    (x + 0.5).isFinite = true ∧ grains (x + 0.5) = grains x + one := by
  obtain ⟨hs, hcanonical⟩ := canonical_parts hx
  have hs52 := hcanonical (by omega)
  have hstep := two_halves_eq hk
  have hpos := half_pos
  have hrest : half < 1 * 2 ^ k := by omega
  rw [grains_of_parts hx]
  cases negative with
  | false =>
    have hnearest := nearestMagnitude_steps Nat.one_pos hs hcanonical hrest
    rw [if_pos (Or.inr ⟨by omega, hodd⟩), infinityBits_eq, Nat.min_eq_right (by omega), one_mul,
      add_assoc] at hnearest
    obtain ⟨hfinite, hg⟩ := grains_ofMagnitude false (m := s + 1) (k := k) hs
      (fun _ => by omega) (by omega)
    rw [add_half_of_pos hx (by omega), ofGrains, hnearest]
    refine ⟨hfinite, hg.trans ?_⟩
    rw [signedGrains_false, signedGrains_false, one_eq hk, add_mul, one_mul, Nat.cast_add]
  | true =>
    obtain ⟨t, rfl⟩ : ∃ t, s = t + 1 := ⟨s - 1, by omega⟩
    have hrest' : (t + 1) * 2 ^ k - half = t * (1 * 2 ^ k) + half := by
      rw [add_mul, one_mul]
      omega
    have hnearest :=
      nearestMagnitude_steps (m := t) Nat.one_pos (by omega) (fun _ => by omega) hrest
    rw [if_neg (by omega), infinityBits_eq, Nat.min_eq_right (by omega), add_zero] at hnearest
    obtain ⟨hfinite, hg⟩ := grains_ofMagnitude true (m := t) (k := k) (by omega)
      (fun _ => by omega) (by omega)
    rw [add_half_of_neg hx (by rw [add_mul]; omega), hrest', ofGrains, hnearest]
    refine ⟨hfinite, hg.trans ?_⟩
    rw [signedGrains_true, signedGrains_true, one_eq hk, add_mul, one_mul, Nat.cast_add]
    ring

/-- What is above the last power of two with halves below it. -/
theorem grains_add_half_of_edge (hx : parts x = .finite true (2 ^ 52) k) (hk : k = 1074) :
    (x + 0.5).isFinite = true ∧ grains (x + 0.5) = grains x + half := by
  have hsub : 2 ^ 52 * 2 ^ k - half = (2 ^ 53 - 1) * 2 ^ 1073 := by
    rw [two_halves_eq hk, ← half_eq rfl]
    omega
  have hlt : half < 2 ^ 52 * 2 ^ k := by
    have hpos := half_pos
    rw [two_halves_eq hk]
    omega
  obtain ⟨hfinite, hg⟩ := grains_ofGrains true (m := 2 ^ 53 - 1) (k := 1073) (by omega) (by omega)
  rw [add_half_of_neg hx hlt, hsub, grains_of_parts hx]
  refine ⟨hfinite, hg.trans ?_⟩
  rw [signedGrains_true, signedGrains_true, ← hsub, Nat.cast_sub hlt.le]
  ring

end Half

/-! ### Rounding -/

section Round

variable {x y : Float}

theorem parts_neg_half : parts (-0.5) = .finite true (2 ^ 52) 1021 := rfl

theorem isFinite_neg_zero : (-0.0 : Float).isFinite = true := rfl

theorem grains_neg_zero : grains (-0.0) = 0 := rfl

variable {s k : Nat} {negative : Bool}

theorem lt_iff {t l : Nat} {negative' : Bool} (hx : parts x = .finite negative s k)
    (hy : parts y = .finite negative' t l) :
    x < y ↔ signedGrains negative s k < signedGrains negative' t l := by
  show decide ((x.toModel.unpack.compare y.toModel.unpack == some .lt) = true) = true ↔ _
  rw [decide_eq_true_iff, compare_unpack hx hy, beq_iff_eq, Option.some.injEq, compare_lt_iff_lt]

theorem isInf_of_parts (h : parts x = .finite negative s k) : x.isInf = false := by
  show x.toModel.unpack.isInf = false
  rw [unpack_eq, h]
  dsimp only [Parts.unpacked]
  split <;> rfl

/-- What rounding does with a finite double depends on its grains. -/
theorem round_eq (hx : x.isFinite = true) :
    round x = if grains x = 0 then x else if -half ≤ grains x ∧ grains x < 0 then -0.0
      else floor (x + 0.5) := by
  obtain ⟨negative, s, k, hparts⟩ := isFinite_iff.1 hx
  have hzero : signedGrains false 0 0 = 0 := rfl
  have hneg : signedGrains true (2 ^ 52) 1021 = -half := by
    rw [signedGrains_true, ← signedGrains_false, signedGrains_half]
  have h0 : (x == 0) = decide (grains x = 0) := by
    rw [Bool.eq_iff_iff, beq_iff hparts parts_zero, hzero, decide_eq_true_iff,
      grains_of_parts hparts]
  have hhalf : -0.5 ≤ x ↔ -half ≤ grains x := by
    rw [le_iff parts_neg_half hparts, hneg, grains_of_parts hparts]
  have hlt : x < 0 ↔ grains x < 0 := by
    rw [lt_iff hparts parts_zero, hzero, grains_of_parts hparts]
  unfold round
  rw [isNaN_of_parts hparts, isInf_of_parts hparts, h0]
  simp only [Bool.false_or, decide_eq_true_eq, Bool.and_eq_true, hhalf, hlt]

/-- The doubles that are moved too far: the last one below one half, and the odd numbers where
doubles are the whole numbers. -/
def Overshoots (x : Float) : Prop :=
  x = 0.49999999999999994 ∨
    ∃ n : ℤ, toRat x = n ∧ n % 2 = 1 ∧ 2 ^ 52 < n.natAbs ∧ n.natAbs < 2 ^ 53

theorem parts_last : parts 0.49999999999999994 = .finite false (2 ^ 53 - 1) 1020 := rfl

theorem grains_last_lt :
    0 < grains 0.49999999999999994 ∧ grains 0.49999999999999994 < half := by
  have hpos : 0 < 2 ^ 1020 := pow_pos two_pos 1020
  rw [grains_of_parts parts_last, signedGrains_false, half_eq_last]
  generalize 2 ^ 1020 = P at hpos ⊢
  omega

theorem eq_last_iff (hx : parts x = .finite negative s k) :
    x = 0.49999999999999994 ↔
      negative = false ∧ k ≤ 1020 ∧ s * 2 ^ k = (2 ^ 53 - 1) * 2 ^ 1020 := by
  obtain ⟨hs, hcanonical⟩ := canonical_parts hx
  constructor
  · rintro rfl
    rw [parts_last] at hx
    cases hx
    exact ⟨rfl, le_rfl, rfl⟩
  · rintro ⟨rfl, -, heq⟩
    obtain ⟨rfl, rfl⟩ := grains_inj hs hcanonical (by omega) (by omega) heq
    rw [← ofMagnitude_of_parts hx, ofMagnitude_of_parts parts_last]

/-- An odd number is a double of full precision if it is its own significand. -/
theorem exists_odd_iff (hx : parts x = .finite negative s k) :
    (∃ n : ℤ, toRat x = n ∧ n % 2 = 1 ∧ 2 ^ 52 < n.natAbs ∧ n.natAbs < 2 ^ 53) ↔
      k = 1074 ∧ s % 2 = 1 := by
  obtain ⟨hs, hcanonical⟩ := canonical_parts hx
  constructor
  · rintro ⟨n, hn, hodd, hlow, hhigh⟩
    have hgrains := congrArg Int.natAbs (toRat_eq_intCast_iff.1 hn)
    rw [grains_of_parts hx, natAbs_signedGrains, Int.natAbs_mul, Int.natAbs_natCast,
      one_eq rfl] at hgrains
    obtain ⟨rfl, rfl⟩ := grains_inj hs hcanonical (by omega) (by omega) hgrains
    exact ⟨rfl, by omega⟩
  · rintro ⟨rfl, hodd⟩
    have hs52 := hcanonical (by decide)
    refine ⟨if negative then -s else s, ?_, ?_, ?_, ?_⟩
    · rw [toRat_eq_intCast_iff, grains_of_parts hx, one_eq rfl]
      cases negative with
      | false => rw [signedGrains_false, if_neg Bool.false_ne_true, Nat.cast_mul]
      | true => rw [signedGrains_true, if_pos rfl, Nat.cast_mul, neg_mul]
    all_goals split <;> omega

/-- From `2 ^ 52` on all doubles are whole numbers. -/
theorem whole_of_large (hx : parts x = .finite negative s k) (hk : 1074 ≤ k) :
    ∃ n : ℤ, grains x = n * one := by
  have hone : s * 2 ^ k = s * 2 ^ (k - 1074) * one := by
    rw [one_eq rfl, mul_assoc, ← pow_add, Nat.sub_add_cancel hk]
  rw [grains_of_parts hx]
  cases negative with
  | false => exact ⟨(s * 2 ^ (k - 1074) : Nat), by rw [signedGrains_false, hone, Nat.cast_mul]⟩
  | true =>
    exact ⟨-(s * 2 ^ (k - 1074) : Nat), by rw [signedGrains_true, hone, Nat.cast_mul, neg_mul]⟩

theorem ediv_one_whole {n : ℤ} : (n * one + half) / one = n := by
  have hone := one_eq_two_halves
  have hpos := half_pos
  refine ediv_one_eq (by omega) ?_
  rw [add_mul]
  omega

/-- One half more has the whole part that it should have, but for the doubles that are moved too
far. -/
theorem grains_add_half (hx : x.isFinite = true) (h0 : grains x ≠ 0)
    (hneg : ¬ (-half ≤ grains x ∧ grains x < 0)) (h : ¬ Overshoots x) :
    (x + 0.5).isFinite = true ∧ grains (x + 0.5) / one = (grains x + half) / one := by
  obtain ⟨negative, s, k, hparts⟩ := isFinite_iff.1 hx
  obtain ⟨hs, hcanonical⟩ := canonical_parts hparts
  rw [Overshoots, eq_last_iff hparts, exists_odd_iff hparts] at h
  have hgrains := grains_of_parts hparts
  rcases Nat.lt_or_ge 1073 k with hlarge | hsmall
  · obtain ⟨n, hn⟩ := whole_of_large hparts hlarge
    have heven : 1074 < k ∨ k = 1074 ∧ s % 2 = 0 := by omega
    have hstay : x + 0.5 = x →
        (x + 0.5).isFinite = true ∧ grains (x + 0.5) / one = (grains x + half) / one := by
      intro hsame
      rw [hsame, hn, ediv_one_whole, Int.mul_ediv_cancel _ (by exact_mod_cast one_pos.ne')]
      exact ⟨hx, rfl⟩
    cases negative with
    | false => exact hstay (add_half_of_large_pos hparts heven)
    | true =>
      by_cases hedge : s = 2 ^ 52 ∧ k = 1074
      · obtain ⟨rfl, hk⟩ := hedge
        obtain ⟨hfinite, hg⟩ := grains_add_half_of_edge hparts hk
        exact ⟨hfinite, by rw [hg]⟩
      · exact hstay (add_half_of_large_neg hparts heven hedge)
  · cases negative with
    | true =>
      have hlt : half < s * 2 ^ k := by
        rw [hgrains, signedGrains_true] at hneg h0
        omega
      obtain ⟨hfinite, hg⟩ := grains_add_half_of_neg hparts hsmall hlt
      exact ⟨hfinite, by rw [hg]⟩
    | false =>
      rcases Nat.lt_or_ge 1020 k with hk | hk
      · exact grains_add_half_of_pos hparts hk hsmall
      · refine grains_add_half_of_small hparts ?_ hk fun heq => h (Or.inl ⟨rfl, hk, heq⟩)
        rintro rfl
        rw [hgrains, signedGrains_false, zero_mul] at h0
        exact h0 rfl

/-- Rounding takes the whole part of one half more. -/
theorem grains_round (hx : x.isFinite = true) (h : ¬ Overshoots x) :
    (round x).isFinite = true ∧ grains (round x) = (grains x + half) / one * one := by
  have hone := one_eq_two_halves
  have hpos := half_pos
  rw [round_eq hx]
  split
  · next h0 =>
    refine ⟨hx, ?_⟩
    rw [h0, Int.ediv_eq_zero_of_lt (by omega) (by omega), zero_mul]
  · next h0 =>
    split
    · next hneg =>
      refine ⟨isFinite_neg_zero, ?_⟩
      rw [grains_neg_zero, Int.ediv_eq_zero_of_lt (by omega) (by omega), zero_mul]
    · next hneg =>
      obtain ⟨hfinite, hg⟩ := grains_add_half hx h0 hneg h
      obtain ⟨hfinite', hfloor⟩ := grains_floor hfinite
      exact ⟨hfinite', by rw [hfloor, hg]⟩

theorem round_last : round 0.49999999999999994 = 1 := eq_of_toBits (by decide +kernel)

theorem grains_one : grains 1 = one := by
  rw [grains_of_parts parts_one, signedGrains_false, ← pow_add, one_eq rfl]

/-- The doubles that are moved too far are moved by one more. -/
theorem grains_round_of_overshoots (hx : x.isFinite = true) (h : Overshoots x) :
    (round x).isFinite = true ∧ grains (round x) = ((grains x + half) / one + 1) * one := by
  have hpos := half_pos
  have hone := one_eq_two_halves
  rcases h with rfl | hodd
  · obtain ⟨hpos', hlt⟩ := grains_last_lt
    rw [round_last, grains_one, Int.ediv_eq_zero_of_lt (by omega) (by omega), zero_add, one_mul]
    exact ⟨rfl, rfl⟩
  · obtain ⟨negative, s, k, hparts⟩ := isFinite_iff.1 hx
    obtain ⟨hk, hs⟩ := (exists_odd_iff hparts).1 hodd
    obtain ⟨hfinite, hg⟩ := grains_add_half_of_odd hparts hk hs
    obtain ⟨hfinite', hfloor⟩ := grains_floor hfinite
    obtain ⟨n, hn⟩ := whole_of_large hparts hk.ge
    have hlarge : one ≤ (grains x).natAbs := by
      rw [grains_of_parts hparts, natAbs_signedGrains, ← one_eq hk]
      exact Nat.le_mul_of_pos_left _ (by omega)
    rw [round_eq hx, if_neg (by omega), if_neg (by omega)]
    refine ⟨hfinite', ?_⟩
    rw [hfloor, hg, hn, ediv_one_whole, ← add_one_mul, Int.mul_ediv_cancel]
    omega

/-! ### Values -/

theorem floor_toRat (x : Float) : ⌊toRat x + 1 / 2⌋ = (grains x + half) / one := by
  have hhalf : (one : ℚ) = 2 * half := by exact_mod_cast one_eq_two_halves
  have hsum : toRat x + 1 / 2 = ((grains x + half : ℤ) : ℚ) / one := by
    have hpos : (half : ℚ) ≠ 0 := by exact_mod_cast half_pos.ne'
    have hone : (1 / 2 : ℚ) = half / one := by
      rw [hhalf, div_mul_cancel_right₀ hpos, one_div]
    rw [toRat, hone, Int.cast_add, Int.cast_natCast, add_div]
  rw [hsum, Rat.floor_intCast_div_natCast]

/-- A double that is moved too far is the last one with its whole part. -/
theorem grains_eq_of_overshoots (hx : x.isFinite = true) (hy : y.isFinite = true)
    (h : Overshoots x) (hle : grains x ≤ grains y)
    (hlt : grains y < (grains x + half) / one * one + half) : grains y = grains x := by
  have hone := one_eq_two_halves
  have hpos := half_pos
  rcases h with rfl | hodd
  · have hgrains : grains 0.49999999999999994 = ((2 ^ 53 - 1) * 2 ^ 1020 : Nat) :=
      grains_of_parts parts_last
    have hhalf := half_eq_last
    have hgap := natAbs_grains_le_or_le (m := 2 ^ 53 - 1) (k := 1020) hy (by omega)
    have hpower : 0 < 2 ^ 1020 := by positivity
    rw [hgrains] at hle hlt ⊢
    generalize 2 ^ 1020 = P at *
    rw [Int.ediv_eq_zero_of_lt (by omega) (by omega)] at hlt
    omega
  · obtain ⟨negative, s, k, hparts⟩ := isFinite_iff.1 hx
    obtain ⟨hk, hs⟩ := (exists_odd_iff hparts).1 hodd
    obtain ⟨hs53, hcanonical⟩ := canonical_parts hparts
    obtain ⟨n, hn⟩ := whole_of_large hparts hk.ge
    have hs52 := hcanonical (by omega)
    have hstep := two_halves_eq hk
    rw [hn, ediv_one_whole, ← hn] at hlt
    rw [grains_of_parts hparts] at hle hlt ⊢
    cases negative with
    | false =>
      have hgap := natAbs_grains_le_or_le (m := s) (k := k) hy hcanonical
      rw [signedGrains_false] at hle hlt ⊢
      rw [add_mul] at hgap
      omega
    | true =>
      obtain ⟨t, rfl⟩ : ∃ t, s = t + 1 := ⟨s - 1, by omega⟩
      have hgap := natAbs_grains_le_or_le (m := t) (k := k) hy (fun _ => by omega)
      rw [signedGrains_true] at hle hlt ⊢
      rw [add_mul] at hgap hle hlt ⊢
      omega

/-- So only an equal double has its whole part and is not below it. -/
theorem overshoots_of_le (hx : x.isFinite = true) (hy : y.isFinite = true)
    (h : Overshoots x) (hle : grains x ≤ grains y)
    (heq : (grains y + half) / one = (grains x + half) / one) : Overshoots y := by
  have hone := one_eq_two_halves
  have hpos : (0 : ℤ) < one := by exact_mod_cast one_pos
  have hlt := Int.lt_ediv_add_one_mul_self (grains y + half) hpos
  rw [heq, add_mul, one_mul] at hlt
  have hsame := grains_eq_of_overshoots hx hy h hle (by omega)
  refine h.imp (fun hlast => ?_) fun ⟨n, hn, hodd⟩ => ⟨n, ?_, hodd⟩
  · subst hlast
    exact (eq_of_grains hx hy grains_last_lt.1.ne' hsame.symm).symm
  · rw [toRat, hsame, ← hn, toRat]

/-- A double that is not moved too far and a whole number is not moved. -/
theorem round_eq_self (hx : x.isFinite = true) (h : ¬ Overshoots x) {n : ℤ} (hn : toRat x = n) :
    round x = x := by
  rw [toRat_eq_intCast_iff] at hn
  by_cases h0 : grains x = 0
  · rw [round_eq hx, if_pos h0]
  · obtain ⟨hfinite, hg⟩ := grains_round hx h
    refine (eq_of_grains hx hfinite h0 ?_).symm
    rw [hg, hn, ediv_one_whole]

/-- Both ways of rounding at once. -/
theorem exists_grains_round (hx : x.isFinite = true) :
    ∃ e : ℤ, (e = 0 ∧ ¬ Overshoots x ∨ e = 1 ∧ Overshoots x) ∧ (round x).isFinite = true ∧
      grains (round x) = ((grains x + half) / one + e) * one := by
  by_cases h : Overshoots x
  · exact ⟨1, Or.inr ⟨rfl, h⟩, grains_round_of_overshoots hx h⟩
  · exact ⟨0, Or.inl ⟨rfl, h⟩, by rw [add_zero]; exact grains_round hx h⟩

/-- Rounding keeps the order of doubles. -/
theorem round_mono (hx : x.isFinite = true) (hy : y.isFinite = true) (hle : x ≤ y) :
    round x ≤ round y := by
  have hpos : (0 : ℤ) < one := by exact_mod_cast one_pos
  obtain ⟨e, he, hfinite, hg⟩ := exists_grains_round hx
  obtain ⟨e', he', hfinite', hg'⟩ := exists_grains_round hy
  rw [le_iff_toRat hx hy, toRat_le_iff] at hle
  have hwhole : (grains x + half) / one ≤ (grains y + half) / one :=
    Int.ediv_le_ediv hpos (by omega)
  rw [le_iff_toRat hfinite hfinite', toRat_le_iff, hg, hg', mul_le_mul_iff_left₀ hpos]
  rcases hwhole.lt_or_eq with hlt | heq
  · omega
  · -- Within one whole part only the last double is moved too far.
    have hover : Overshoots x → Overshoots y := fun h => overshoots_of_le hx hy h hle heq.symm
    rcases he with ⟨rfl, -⟩ | ⟨rfl, h⟩ <;> rcases he' with ⟨rfl, h'⟩ | ⟨rfl, -⟩
    · omega
    · omega
    · exact absurd (hover h) h'
    · omega

/-- A finite double is rounded to the closest whole number, a half going up, and the order of
doubles is kept.  Only the doubles that are moved too far, because one half more is not a double
for them, end one above that. -/
theorem round_closest (hx : x.isFinite = true) :
    (round x).isFinite = true ∧
      (¬ Overshoots x → toRat (round x) = ⌊toRat x + 1 / 2⌋ ∧
        |toRat (round x) - toRat x| ≤ 1 / 2 ∧ ∀ n : ℤ, toRat x = n → round x = x) ∧
      (Overshoots x → toRat (round x) = ⌊toRat x + 1 / 2⌋ + 1) ∧
      ∀ y : Float, y.isFinite = true → x ≤ y → round x ≤ round y := by
  obtain ⟨-, -, hfinite, -⟩ := exists_grains_round hx
  refine ⟨hfinite, fun h => ?_, fun h => ?_, fun y hy => round_mono hx hy⟩
  · have hvalue : toRat (round x) = ⌊toRat x + 1 / 2⌋ := by
      rw [toRat_eq_intCast_iff.2 (grains_round hx h).2, floor_toRat]
    refine ⟨hvalue, ?_, fun n => round_eq_self hx h⟩
    have hle := Int.floor_le (toRat x + 1 / 2)
    have hlt := Int.lt_floor_add_one (toRat x + 1 / 2)
    rw [hvalue, abs_le]
    constructor <;> linarith
  · rw [toRat_eq_intCast_iff.2 (grains_round_of_overshoots hx h).2, floor_toRat]
    push_cast
    rfl

end Round

theorem parts_five_halves : parts 2.5 = .finite false (5 * 2 ^ 50) 1023 := rfl

theorem round_closest_five_halves :
    (2.5 : Float).isFinite = true ∧ round 2.5 = 3 ∧ toRat (round 2.5) = ⌊toRat 2.5 + 1 / 2⌋ := by
  have hfinite : (2.5 : Float).isFinite = true := isFinite_iff.2 ⟨_, _, _, parts_five_halves⟩
  have hover : ¬ Overshoots 2.5 := by
    rw [Overshoots, eq_last_iff parts_five_halves, exists_odd_iff parts_five_halves]
    omega
  obtain ⟨-, hround, -⟩ := round_closest hfinite
  exact ⟨hfinite, eq_of_toBits (by decide +kernel), (hround hover).1⟩

/-- An odd number above `2 ^ 52` is not left alone, and the last double below one half is moved by
more than a half. -/
theorem round_moves_too_far :
    toRat 4503599627370497 = 4503599627370497 ∧ round 4503599627370497 = 4503599627370498 ∧
      toRat 0.49999999999999994 < 1 / 2 ∧ round 0.49999999999999994 = 1 := by
  have hparts : parts 4503599627370497 = .finite false 4503599627370497 1074 := rfl
  have hgrains : grains 4503599627370497 = (4503599627370497 : ℤ) * one := by
    rw [grains_of_parts hparts, signedGrains_false, ← one_eq rfl, Nat.cast_mul, Nat.cast_ofNat]
  obtain ⟨-, hlast⟩ := grains_last_lt
  have hvalue := toRat_eq_intCast_iff.2 hgrains
  refine ⟨by exact_mod_cast hvalue, eq_of_toBits (by decide +kernel), ?_, round_last⟩
  have hhalf : (0 : ℚ) < half := by exact_mod_cast half_pos
  have hone : (one : ℚ) = 2 * half := by exact_mod_cast one_eq_two_halves
  rw [toRat, hone, div_lt_iff₀ (by linarith)]
  have : (grains 0.49999999999999994 : ℚ) < half := by exact_mod_cast hlast
  linarith

end XPath.Number
