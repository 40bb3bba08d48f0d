/-
Parts of texts between two positions.

A part is what a test of every position leaves over: one that is not before the first number and is
before the second one.  The doubles of the positions are in order, so the positions that pass follow
one another, whatever the two numbers are.  Where they are integers, nothing is rounded, and the
part is the one that they name.

* `slice` — the characters from one position to another;
* `betweenFrom_isInfix` — what is left over is in one piece;
* `betweenFrom_eq` — and between integers, if the test of positions is one of integers;
* `Expr.Writes` — an integer that is written out;
* `substring_cuts` — the function `substring`.
-/
import XPath.Proofs.Library.Strings
import XPath.Proofs.Number.Integers
import XPath.Proofs.Number.Reading

namespace XPath

namespace Text

/-- The characters of a text at the positions from `first` to `last`, counted from one. -/
def slice (s : String) (first last : ℤ) : String :=
  String.ofList ((s.toList.take last.toNat).drop (first - 1).toNat)

/-! ### Positions between doubles -/

section Between

variable {first stop : Float} {position : Nat} {s : List Char}

theorem betweenFrom_cons (c : Char) :
    betweenFrom first stop position (c :: s) =
      if first ≤ Number.ofNat position && Number.ofNat position < stop then
        c :: betweenFrom first stop (position + 1) s
      else betweenFrom first stop (position + 1) s := rfl

/-- After the end nothing is left. -/
theorem betweenFrom_eq_nil (h : ¬ Number.ofNat position < stop) :
    betweenFrom first stop position s = [] := by
  induction s generalizing position with
  | nil => rfl
  | cons c s ih =>
    have hnext : ¬ Number.ofNat (position + 1) < stop := fun hlt =>
      h (Number.lt_of_le_of_lt (Number.ofNat_le_ofNat (Nat.le_succ position)) hlt)
    rw [betweenFrom_cons, decide_eq_false h, Bool.and_false, if_neg Bool.false_ne_true, ih hnext]

/-- From the start on, everything is left up to the end. -/
theorem betweenFrom_isPrefix (h : first ≤ Number.ofNat position) :
    betweenFrom first stop position s <+: s := by
  induction s generalizing position with
  | nil => exact List.prefix_refl _
  | cons c s ih =>
    have hnext : first ≤ Number.ofNat (position + 1) :=
      Number.le_trans h (Number.ofNat_le_ofNat (Nat.le_succ position))
    by_cases hstop : Number.ofNat position < stop
    · rw [betweenFrom_cons, decide_eq_true h, decide_eq_true hstop, Bool.and_true, if_pos rfl]
      exact List.cons_prefix_cons.2 ⟨rfl, ih hnext⟩
    · rw [betweenFrom_eq_nil hstop]
      exact List.nil_prefix

/-- What is left between two doubles is in one piece. -/
theorem betweenFrom_isInfix : betweenFrom first stop position s <:+: s := by
  induction s generalizing position with
  | nil => exact List.infix_refl _
  | cons c s ih =>
    by_cases h : first ≤ Number.ofNat position
    · exact (betweenFrom_isPrefix h).isInfix
    · rw [betweenFrom_cons, decide_eq_false h, Bool.false_and, if_neg Bool.false_ne_true]
      exact List.infix_cons ih

/-- Where positions are tested as integers, these are cut at. -/
theorem betweenFrom_eq {m e : ℤ}
    (hfirst : ∀ p : Nat, position ≤ p → p < position + s.length →
      (first ≤ Number.ofNat p ↔ m ≤ p))
    (hstop : ∀ p : Nat, position ≤ p → p < position + s.length →
      (Number.ofNat p < stop ↔ p < e)) :
    betweenFrom first stop position s =
      (s.take (e - position).toNat).drop (m - position).toNat := by
  induction s generalizing position with
  | nil => simp [betweenFrom]
  | cons c s ih =>
    rw [List.length_cons] at hfirst hstop
    have hrest : betweenFrom first stop (position + 1) s = _ :=
      ih (fun p hp hlt => hfirst p (by omega) (by omega))
        (fun p hp hlt => hstop p (by omega) (by omega))
    have hfirst := hfirst position le_rfl (by omega)
    have hstop := hstop position le_rfl (by omega)
    rw [betweenFrom_cons, hrest]
    simp only [Bool.and_eq_true, decide_eq_true_eq, hfirst, hstop]
    rcases le_or_gt e position with he | he
    · rw [if_neg (by omega), show (e - position).toNat = 0 by omega,
        show (e - (position + 1 : Nat)).toNat = 0 by omega, List.take_zero, List.take_zero]
      simp
    · rw [show (e - position).toNat = (e - (position + 1 : Nat)).toNat + 1 by omega,
        List.take_succ_cons]
      rcases le_or_gt m position with hm | hm
      · rw [if_pos ⟨hm, he⟩, show (m - position).toNat = 0 by omega,
          show (m - (position + 1 : Nat)).toNat = 0 by omega, List.drop_zero, List.drop_zero]
      · rw [if_neg (by omega), show (m - position).toNat = (m - (position + 1 : Nat)).toNat + 1
          by omega, List.drop_succ_cons]

end Between

/-- A part of a text is in one piece. -/
theorem exists_append_between (s : String) (first stop : Float) :
    ∃ u v, s = u ++ between s first stop ++ v := by
  obtain ⟨u, v, h⟩ : betweenFrom first stop 1 s.toList <:+: s.toList := betweenFrom_isInfix
  refine ⟨String.ofList u, String.ofList v, ?_⟩
  rw [← String.toList_inj, String.toList_append, String.toList_append, String.toList_ofList,
    String.toList_ofList, between, String.toList_ofList, h]

/-! ### Positions between integers -/

section Integers

variable {s : String} {x y : Float} {m k e : ℤ}

/-- Positions before the first and after the last one do not count. -/
theorem slice_max_min : slice s (max m 1) (min e s.length) =
    String.ofList ((s.toList.take e.toNat).drop (m - 1).toNat) := by
  have htake : s.toList.take (min e s.length).toNat = s.toList.take e.toNat := by
    rw [List.take_eq_take_iff, String.length_toList]
    omega
  rw [slice, htake, show (max m 1 - 1).toNat = (m - 1).toNat by omega]

/-- There is nothing from one position to an earlier one. -/
theorem slice_eq_empty {first last : ℤ} (h : last < first) : slice s first last = "" := by
  have hlength := List.length_take_le last.toNat s.toList
  rw [slice, List.drop_eq_nil_of_le (by omega), String.ofList_nil]

/-- A text is cut in two. -/
theorem slice_append_slice :
    slice s (max 1 1) (min k s.length) ++ slice s (max (k + 1) 1) s.length = s := by
  have hall : slice s (max (k + 1) 1) s.length =
      slice s (max (k + 1) 1) (min s.length s.length) := by rw [min_self]
  rw [hall, slice_max_min, slice_max_min, ← String.toList_inj, String.toList_append,
    String.toList_ofList, String.toList_ofList, Int.toNat_natCast, ← String.length_toList,
    List.take_length, Int.add_sub_cancel]
  exact List.take_append_drop k.toNat s.toList

section Bounds

variable (hs : s.length < 2 ^ 51) (hx : Number.HasValue x m)

include hs hx

theorem between_eq_slice (hstop : ∀ p : Nat, p ≤ s.length → (Number.ofNat p < y ↔ p < e)) :
    between s x y = slice s (max m 1) (min (e - 1) s.length) := by
  have hlength : 1 + s.toList.length = s.length + 1 := by rw [String.length_toList, Nat.add_comm]
  rw [between, slice_max_min, betweenFrom_eq (m := m) (e := e)]
  · rfl
  · intro p _ hp
    exact hx.le_iff (Number.hasValue_ofNat (by omega))
  · intro p _ hp
    exact hstop p (by omega)

/-- From an integer on as many characters as another one says. -/
theorem substring_eq_slice (hm : m.natAbs ≤ 2 ^ 51) (hy : Number.HasValue y k)
    (hk : k.natAbs ≤ 2 ^ 51) :
    substring s x (some y) = slice s (max m 1) (min (m + k - 1) s.length) := by
  have hsum := hx.add hy (by omega)
  rw [substring, hx.round (by omega), hy.round (by omega)]
  exact between_eq_slice hs hx fun p hp => (Number.hasValue_ofNat (by omega)).lt_iff hsum

/-- From an integer on all characters. -/
theorem substring_eq_slice_length (hm : m.natAbs ≤ 2 ^ 52) :
    substring s x none = slice s (max m 1) s.length := by
  rw [substring, hx.round hm]
  refine (between_eq_slice (e := s.length + 1) hs hx fun p hp => ?_).trans ?_
  · exact iff_of_true (Number.lt_infinity (Number.hasValue_ofNat (by omega)).1) (by omega)
  · rw [Int.add_sub_cancel, min_self]

end Bounds

end Integers

end Text

/-! ### Integers that are written out -/

/-- An expression is an integer that is written out: a number literal, its negation or a sum. -/
inductive Expr.Writes : Expr → ℤ → Prop
  | literal {x : Float} {n : ℤ} (h : Number.HasValue x n) : Writes (.number x) n
  | negation {e : Expr} {n : ℤ} (h : Writes e n) : Writes (.negate e) (-n)
  | sum {l r : Expr} {m n : ℤ} (hl : Writes l m) (hr : Writes r n)
      (hle : (m + n).natAbs ≤ 2 ^ 53) : Writes (.arithmetic .add l r) (m + n)

namespace Expr.Writes

variable {e : Expr} {n : ℤ}

/-- A literal that writes an integer and is read as a number is that integer. -/
theorem of_spells {l : Number.Literal} {text : String} (h : l.Spells text)
    (hread : (Number.read text).isNaN = false) (hexact : l.exact = n) (hn : n.natAbs ≤ 2 ^ 53) :
    Writes (.number (Number.read text)) n := by
  have hclosest := l.isClosest_value
  rw [← Number.Literal.read_of_spells h (Number.isNaN_read_iff.1 hread).2, hexact] at hclosest
  exact .literal (hclosest.hasValue hn)

/-- What is written out is the double of the integer. -/
theorem numeral_eq (h : e.Writes n) (σ : Setting) (c : Context) :
    ∃ x, e.numeral σ c = pure x ∧ Number.HasValue x n := by
  induction h with
  | literal h =>
    rw [numeral, meaning]
    exact ⟨_, rfl, h⟩
  | negation h ih =>
    obtain ⟨x, hx, hvalue⟩ := ih
    refine ⟨-x, ?_, hvalue.neg⟩
    rw [numeral_negate, hx, pure_bind]
  | sum hl hr hle ihl ihr =>
    obtain ⟨x, hx, hl⟩ := ihl
    obtain ⟨y, hy, hr⟩ := ihr
    refine ⟨x + y, ?_, hl.add hr hle⟩
    rw [numeral_arithmetic, hx, pure_bind, Number.isNaN_of_isFinite hl.1, hy]
    rfl

end Expr.Writes

namespace Expr

variable {σ : Setting} {c : Context} {a start count : Expr} {s : String} {m k : ℤ}
  (ha : a.text σ c = pure s) (hs : s.length < 2 ^ 51) (hstart : start.Writes m)

include ha hs hstart

theorem value_substring_of_writes (hm : m.natAbs ≤ 2 ^ 51) (hcount : count.Writes k)
    (hk : k.natAbs ≤ 2 ^ 51) :
    ((call ⟨none, "substring"⟩ [a, start, count]).meaning
      (.standard Registry.core.library σ)).value c =
        pure (.string (Text.slice s (max m 1) (min (m + k - 1) s.length))) := by
  obtain ⟨x, hx, hvalue⟩ := hstart.numeral_eq σ c
  obtain ⟨y, hy, hvalue'⟩ := hcount.numeral_eq σ c
  rw [value_substring, ha, hx, hy, pure_bind, pure_bind, pure_bind,
    Text.substring_eq_slice hs hvalue hm hvalue' hk]

theorem value_substring_from_of_writes (hm : m.natAbs ≤ 2 ^ 52) :
    ((call ⟨none, "substring"⟩ [a, start]).meaning
      (.standard Registry.core.library σ)).value c =
        pure (.string (Text.slice s (max m 1) s.length)) := by
  obtain ⟨x, hx, hvalue⟩ := hstart.numeral_eq σ c
  rw [value_substring_from, ha, hx, pure_bind, pure_bind,
    Text.substring_eq_slice_length hs hvalue hm]

end Expr

/-- Let a string have fewer than `2 ^ 51` characters, and let integers up to `2 ^ 51` be written out
as literals, their negations or sums.  Then `substring` from one on, as many characters as the first
integer says, and `substring` from the next position on make up the string; and `substring` from the
second integer on gives the characters from that position on, as many as the first one says, as far
as there are such positions.  Every literal with an integer up to `2 ^ 53` that is read as a number
is that integer.  For any numbers, and a string of any length, a call gives a part of the string
that is in one piece. -/
theorem substring_cuts :
    (∀ (σ : Setting) (c : Context) (a : Expr) (s : String), a.text σ c = pure s →
      s.length < 2 ^ 51 → ∀ (k m : ℤ), k.natAbs ≤ 2 ^ 51 → m.natAbs ≤ 2 ^ 51 →
      ∀ (first count next start : Expr), first.Writes 1 → count.Writes k → next.Writes (k + 1) →
        start.Writes m →
        let value := fun arguments => ((Expr.call ⟨none, "substring"⟩ (a :: arguments)).meaning
          (.standard Registry.core.library σ)).value c
        (∃ u v, u ++ v = s ∧ value [first, count] = pure (.string u) ∧
          value [next] = pure (.string v)) ∧
        value [start, count] =
          pure (.string (Text.slice s (max m 1) (min (m + k - 1) s.length))) ∧
        (min (m + k - 1) s.length < max m 1 → value [start, count] = pure (.string ""))) ∧
    (∀ (l : Number.Literal) (text : String) (n : ℤ), l.Spells text →
      (Number.read text).isNaN = false → l.exact = n → n.natAbs ≤ 2 ^ 53 →
      Expr.Writes (.number (Number.read text)) n) ∧
    (∀ (σ : Setting) (c : Context) (a start length : Expr),
      let value := fun arguments => ((Expr.call ⟨none, "substring"⟩ (a :: arguments)).meaning
        (.standard Registry.core.library σ)).value c
      (value [start, length] = do
        let s ← a.text σ c
        let x ← start.numeral σ c
        let y ← length.numeral σ c
        return .string (Text.substring s x (some y))) ∧
      value [start] = do
        let s ← a.text σ c
        let x ← start.numeral σ c
        return .string (Text.substring s x none)) ∧
    ∀ (s : String) (x : Float) (y? : Option Float), ∃ u v, s = u ++ Text.substring s x y? ++ v := by
  refine ⟨fun σ c a s ha hs k m hk hm first count next start hfirst hcount hnext hstart => ?_,
    fun l text n => Expr.Writes.of_spells, fun σ c a start length => ⟨?_, ?_⟩,
    fun s x y? => Text.exists_append_between s _ _⟩
  · have hvalue := Expr.value_substring_of_writes ha hs hstart hm hcount hk
    have hleft := Expr.value_substring_of_writes ha hs hfirst (by decide) hcount hk
    have hright := Expr.value_substring_from_of_writes ha hs hnext (by omega)
    rw [show 1 + k - 1 = k by omega] at hleft
    refine ⟨⟨_, _, Text.slice_append_slice, hleft, hright⟩, hvalue, fun hempty => ?_⟩
    rw [← Text.slice_eq_empty hempty]
    exact hvalue
  · exact Expr.value_substring σ c a start length
  · exact Expr.value_substring_from σ c a start

/-- From minus two on, the fourth character is the first one of the text. -/
theorem substring_cuts_negative :
    let value := fun arguments =>
      ((Expr.call ⟨none, "substring"⟩ (.string "äbc" :: arguments)).meaning
        (.standard Registry.core.library (.ofTree .sample))).value (.alone ⟨0, 0⟩)
    let one := Expr.number (Number.read "1")
    let two := Expr.number (Number.read "2")
    let four := Expr.number (Number.read "4")
    one.Writes 1 ∧ four.Writes 4 ∧ (Expr.negate two).Writes (-2) ∧
    (Expr.arithmetic .add four one).Writes (4 + 1) ∧
    (∃ u v, u ++ v = "äbc" ∧ value [one, four] = pure (.string u) ∧
      value [.arithmetic .add four one] = pure (.string v)) ∧
    value [.negate two, four] = pure (.string "ä") := by
  obtain ⟨hcut, hliteral, -⟩ := substring_cuts
  have hdigit : ∀ (c : Char) (n : Nat), n ≤ 9 → Number.Literal.digitsValue [c] = n →
      c.isDigit = true → (Number.read (String.ofList [c])).isNaN = false →
      Expr.Writes (.number (Number.read (String.ofList [c]))) n := by
    intro c n hn hvalue hdigit hread
    have hexact : Number.Literal.exact ⟨false, [c], []⟩ = (n : ℤ) := by
      rw [Number.Literal.exact, hvalue, Number.Literal.fractionValue, Number.withSign_false,
        add_zero, Int.cast_natCast]
    have hwrites : Number.Literal.Writes ⟨false, [c], []⟩ [c] :=
      ⟨[c], .whole ⟨List.cons_ne_nil _ _, by simpa using hdigit⟩, rfl⟩
    have hspells : Number.Literal.Spells ⟨false, [c], []⟩ (String.ofList [c]) :=
      ⟨[], [c], [], by simp, by simp, hwrites⟩
    exact hliteral _ _ n hspells hread hexact (by omega)
  have hone := hdigit '1' 1 (by decide) (by decide) (by decide) (by decide +kernel)
  have htwo := (hdigit '2' 2 (by decide) (by decide) (by decide) (by decide +kernel)).negation
  have hfour := hdigit '4' 4 (by decide) (by decide) (by decide) (by decide +kernel)
  have hfive := hfour.sum hone (by decide)
  have hlength : "äbc".length < 2 ^ 51 := by decide
  obtain ⟨hparts, hvalue, -⟩ := hcut (.ofTree .sample) (.alone ⟨0, 0⟩) _ _
    (Expr.text_string _ "äbc" _) hlength 4 (-2) (by decide) (by decide) _ _ _ _
    hone hfour hfive htwo
  exact ⟨hone, hfour, htwo, hfive, hparts,
    hvalue.trans (congrArg (fun s => pure (Value.string s)) (by decide))⟩

end XPath
