/-
The table of comparisons.

What a comparison asks depends on the kinds of both operands and on whether the operator is about
equality or about order.  It is written down here as a table, apart from the way in which values are
compared, and for any way of converting strings to numbers that has no effects.  What does not
depend on the side of an operand can then be seen from the table.

* `Comparison.Asks` — the table;
* `Comparison.asks_mirrored` — exchanging the operands mirrors the operator;
* `Comparison.holdsWith_pure`, `Comparison.answer_iff` — values are compared as the table says;
* `comparisons_by_table` — so the comparison of any two values has an answer, that of the table;
* `comparisons_mirrored` — what the operators have to do with each other.
-/
import XPath.Proofs.Number.Grains
import XPath.Tree.Sample
import XPath.Value.Operator

namespace XPath

namespace Comparison

/-! ### The table -/

section Table

variable (v : View) (number : Value → Float)

/-- The operator that says the same of the operands the other way round. -/
def mirrored : Comparison → Comparison
  | eq => eq
  | ne => ne
  | lt => gt
  | le => ge
  | gt => lt
  | ge => le

/-- Whether two things are equal, or whether they differ. -/
def Equates {α : Type} (op : Comparison) (x y : α) : Prop := if op = ne then x ≠ y else x = y

/-- Texts are equal or not as strings, and in order as numbers. -/
def OnTexts (op : Comparison) (s t : String) : Prop :=
  if op.isEquality then op.Equates s t
  else op.onNumbers (number (.string s)) (number (.string t)) = true

/-- Without node-sets, order is about numbers.  Equality is about truth values if one of the two is
a truth value, about numbers if one of them is a number, and about strings otherwise. -/
def OnScalars (op : Comparison) (a b : Value) : Prop :=
  if op.isEquality = false then op.onNumbers (number a) (number b) = true
  else if a.kind = .boolean ∨ b.kind = .boolean then op.Equates a.toBool b.toBool
  else if a.kind = .number ∨ b.kind = .number then op.onNumbers (number a) (number b) = true
  else op.Equates (a.toText v) (b.toText v)

/-- What the comparison of two values asks. -/
def Asks (op : Comparison) : Value → Value → Prop
  | .nodeSet s, .nodeSet t =>
    ∃ n ∈ s.nodes, ∃ m ∈ t.nodes, op.OnTexts number (v.stringValue n) (v.stringValue m)
  | .nodeSet s, .string w => ∃ n ∈ s.nodes, op.OnTexts number (v.stringValue n) w
  | .string w, .nodeSet t => ∃ n ∈ t.nodes, op.OnTexts number w (v.stringValue n)
  | .nodeSet s, .number x =>
    ∃ n ∈ s.nodes, op.onNumbers (number (.string (v.stringValue n))) x = true
  | .number x, .nodeSet t =>
    ∃ n ∈ t.nodes, op.onNumbers x (number (.string (v.stringValue n))) = true
  | .nodeSet s, .boolean b => op.OnScalars v number (.boolean !s.isEmpty) (.boolean b)
  | .boolean b, .nodeSet t => op.OnScalars v number (.boolean b) (.boolean !t.isEmpty)
  | a, b => op.OnScalars v number a b

end Table

/-! ### Both sides of the table -/

section Sides

variable {v : View} {number : Value → Float} (op : Comparison)

theorem isEquality_mirrored : op.mirrored.isEquality = op.isEquality := by cases op <;> rfl

theorem equates_mirrored {α : Type} (x y : α) : op.mirrored.Equates y x ↔ op.Equates x y := by
  cases op <;> simp [mirrored, Equates, eq_comm]

theorem onNumbers_mirrored (x y : Float) : op.mirrored.onNumbers y x = op.onNumbers x y := by
  cases op with
  | eq => exact Number.beq_comm y x
  | ne => exact congrArg not (Number.beq_comm y x)
  | lt => rfl
  | le => rfl
  | gt => rfl
  | ge => rfl

theorem onTexts_mirrored (s t : String) :
    op.mirrored.OnTexts number t s ↔ op.OnTexts number s t := by
  rw [OnTexts, OnTexts, isEquality_mirrored, equates_mirrored, onNumbers_mirrored]

theorem onScalars_mirrored (a b : Value) :
    op.mirrored.OnScalars v number b a ↔ op.OnScalars v number a b := by
  rw [OnScalars, OnScalars, isEquality_mirrored, equates_mirrored, equates_mirrored,
    onNumbers_mirrored]
  simp only [or_comm]

/-- Exchanging the operands mirrors the operator. -/
theorem asks_mirrored (a b : Value) :
    op.mirrored.Asks v number b a ↔ op.Asks v number a b := by
  cases a with
  | nodeSet s =>
    cases b with
    | nodeSet t =>
      simp only [Asks, onTexts_mirrored]
      constructor
      · rintro ⟨m, hm, n, hn, h⟩
        exact ⟨n, hn, m, hm, h⟩
      · rintro ⟨n, hn, m, hm, h⟩
        exact ⟨m, hm, n, hn, h⟩
    | string w => simp only [Asks, onTexts_mirrored]
    | number x => simp only [Asks, onNumbers_mirrored]
    | boolean b => exact op.onScalars_mirrored _ _
  | string w =>
    cases b with
    | nodeSet t => simp only [Asks, onTexts_mirrored]
    | _ => exact op.onScalars_mirrored _ _
  | number x =>
    cases b with
    | nodeSet t => simp only [Asks, onNumbers_mirrored]
    | _ => exact op.onScalars_mirrored _ _
  | boolean b' => cases b <;> exact op.onScalars_mirrored _ _

end Sides

/-! ### How values are compared -/

section Answers

variable (v : View) (number : Value → Float) (op : Comparison) (a b : Value)

/-- The answer to the comparison of two values, if the conversion to numbers has no effects. -/
def answer : Bool := Id.run (op.holdsWith v (fun value => pure (number value)) a b)

/-- The answer to the comparison of two scalars. -/
def scalarsAnswer : Bool := Id.run (op.scalarsHold v (fun value => pure (number value)) a b)

variable {v number a b}

theorem scalarsHold_pure {m : Type → Type} [Monad m] [LawfulMonad m] :
    op.scalarsHold v (fun value => (pure (number value) : m Float)) a b =
      pure (op.scalarsAnswer v number a b) := by
  unfold scalarsAnswer scalarsHold
  simp only [convertedHolds, pure_bind]
  split
  · split <;> rfl
  · rfl

/-- Comparing values has no effects if converting them to numbers has none. -/
theorem holdsWith_pure {m : Type → Type} [Monad m] [LawfulMonad m] :
    op.holdsWith v (fun value => (pure (number value) : m Float)) a b =
      pure (op.answer v number a b) := by
  unfold answer holdsWith
  simp only [scalarsHold_pure, List.anyM_pure]
  split <;> rfl

theorem onEquality_iff {α : Type} [BEq α] [LawfulBEq α] (x y : α) :
    op.onEquality (x == y) = true ↔ op.Equates x y := by
  cases op <;> simp [onEquality, Equates]

/-- Scalars are compared as the table says. -/
theorem scalarsAnswer_iff : op.scalarsAnswer v number a b = true ↔ op.OnScalars v number a b := by
  have converted : Id.run (op.convertedHolds (fun value => pure (number value)) a b) =
      op.onNumbers (number a) (number b) := rfl
  unfold scalarsAnswer scalarsHold OnScalars
  cases op.isEquality with
  | false => rw [if_neg (by simp), if_pos rfl, converted]
  | true =>
    rw [if_pos rfl, if_neg (by simp)]
    cases a <;> cases b <;> simp [Value.kind, converted, onEquality_iff]

theorem onScalars_texts (s t : String) :
    op.OnScalars v number (.string s) (.string t) ↔ op.OnTexts number s t := by
  unfold OnScalars OnTexts
  cases op.isEquality <;> simp [Value.kind, Value.toText]

/-- With a number, equality is about numbers as order is. -/
theorem onScalars_number (h : a.kind = .string ∧ b.kind = .number ∨
    a.kind = .number ∧ b.kind = .string) :
    op.OnScalars v number a b ↔ op.onNumbers (number a) (number b) = true := by
  unfold OnScalars
  cases op.isEquality
  · rw [if_pos rfl]
  · obtain ⟨ha, hb⟩ | ⟨ha, hb⟩ := h <;> simp [ha, hb]

/-- Values are compared as the table says, by a conversion that leaves numbers as they are. -/
theorem answer_iff (hnumber : ∀ x, number (.number x) = x) :
    op.answer v number a b = true ↔ op.Asks v number a b := by
  unfold answer holdsWith
  simp only [scalarsHold_pure, List.anyM_pure]
  cases a with
  | nodeSet s =>
    cases b with
    | nodeSet t => simp [Asks, nodeText, scalarsAnswer_iff, onScalars_texts]
    | string w => simp [Asks, nodeText, scalarsAnswer_iff, onScalars_texts]
    | number x => simp [Asks, nodeText, scalarsAnswer_iff, onScalars_number, Value.kind, hnumber]
    | boolean b => exact op.scalarsAnswer_iff
  | string w =>
    cases b with
    | nodeSet t => simp [Asks, nodeText, scalarsAnswer_iff, onScalars_texts]
    | _ => exact op.scalarsAnswer_iff
  | number x =>
    cases b with
    | nodeSet t => simp [Asks, nodeText, scalarsAnswer_iff, onScalars_number, Value.kind, hnumber]
    | _ => exact op.scalarsAnswer_iff
  | boolean b' => cases b <;> exact op.scalarsAnswer_iff

end Answers

/-! ### Empty node-sets -/

end Comparison

/-- The two paragraphs of the sample. -/
def Value.sampleParagraphs : Value := .nodeSet ⟨[⟨0, 1⟩, ⟨0, 8⟩]⟩

theorem NodeSet.exists_mem {s : NodeSet} (h : s.isEmpty = false) : ∃ n, n ∈ s.nodes := by
  refine List.exists_mem_of_ne_nil _ fun hs => ?_
  rw [isEmpty, hs] at h
  cases h

namespace Comparison

variable {v : View} {number : Value → Float} {a b : Value}

theorem holds_iff (op : Comparison) :
    op.holds v a b = true ↔ op.Asks v (fun value => value.toNumber v) a b :=
  op.answer_iff fun _ => rfl

theorem onTexts_ne {s t : String} : ne.OnTexts number s t ↔ ¬ eq.OnTexts number s t := Iff.rfl

theorem onNumbers_ne {x y : Float} : ne.onNumbers x y = true ↔ ¬ eq.onNumbers x y = true := by
  show (!(x == y)) = true ↔ ¬ (x == y) = true
  simp

/-- Without node-sets, what is not equal differs, also if it is not a number. -/
theorem onScalars_ne : ne.OnScalars v number a b ↔ ¬ eq.OnScalars v number a b := by
  unfold OnScalars
  rw [if_neg (show ¬ ne.isEquality = false by decide),
    if_neg (show ¬ eq.isEquality = false by decide)]
  by_cases hboolean : a.kind = .boolean ∨ b.kind = .boolean
  · rw [if_pos hboolean, if_pos hboolean]
    exact Iff.rfl
  rw [if_neg hboolean, if_neg hboolean]
  by_cases hnumber : a.kind = .number ∨ b.kind = .number
  · rw [if_pos hnumber, if_pos hnumber]
    exact onNumbers_ne
  · rw [if_neg hnumber, if_neg hnumber]
    exact Iff.rfl

/-- Where no node of a set is chosen, what is not equal differs. -/
theorem asks_ne (h : (a.kind ≠ .nodeSet ∧ b.kind ≠ .nodeSet) ∨ a.kind = .boolean ∨
    b.kind = .boolean) : ne.Asks v number a b ↔ ¬ eq.Asks v number a b := by
  cases a <;> cases b <;> first | exact onScalars_ne | simp [Value.kind] at h

/-- If no node of a set that has nodes is equal, some node of it differs. -/
theorem asks_ne_of_nodeSet {s : NodeSet} (hs : s.isEmpty = false) (hb : b.kind ≠ .boolean)
    (hnodes : ∀ t, b = .nodeSet t → t.isEmpty = false) (h : ¬ eq.Asks v number (.nodeSet s) b) :
    ne.Asks v number (.nodeSet s) b := by
  obtain ⟨n, hn⟩ := NodeSet.exists_mem hs
  cases b with
  | nodeSet t =>
    obtain ⟨m, hm⟩ := NodeSet.exists_mem (hnodes t rfl)
    exact ⟨n, hn, m, hm, onTexts_ne.2 fun he => h ⟨n, hn, m, hm, he⟩⟩
  | string w => exact ⟨n, hn, onTexts_ne.2 fun he => h ⟨n, hn, he⟩⟩
  | number x => exact ⟨n, hn, onNumbers_ne.2 fun he => h ⟨n, hn, he⟩⟩
  | boolean b => exact (hb rfl).elim

/-- With node-sets that all have nodes, what is not equal differs. -/
theorem asks_ne_of_not_asks_eq (hset : a.kind = .nodeSet ∨ b.kind = .nodeSet)
    (ha : a.kind ≠ .boolean) (hb : b.kind ≠ .boolean)
    (hnodes : ∀ s, a = .nodeSet s ∨ b = .nodeSet s → s.isEmpty = false)
    (h : ¬ eq.Asks v number a b) : ne.Asks v number a b := by
  rcases hset with hset | hset
  · cases a with
    | nodeSet s =>
      exact asks_ne_of_nodeSet (hnodes s (.inl rfl)) hb (fun t ht => hnodes t (.inr ht)) h
    | _ => cases hset
  · -- Neither operator changes if it is mirrored, so the set may as well be on the left.
    rw [← asks_mirrored] at h ⊢
    cases b with
    | nodeSet t =>
      exact asks_ne_of_nodeSet (hnodes t (.inr rfl)) ha (fun s hs => hnodes s (.inl hs)) h
    | _ => cases hset

end Comparison

/-- Exchanging the operands of a comparison mirrors the operator, whatever their kinds.  Values that
are not equal differ, and no others, if neither is a node-set or one is a truth value; otherwise, if
there is a node-set, values that are not equal differ as long as every node-set has a node. -/
theorem comparisons_mirrored (v : View) (a b : Value) :
    (∀ op : Comparison, op.mirrored.holds v b a = op.holds v a b) ∧
    ((a.kind ≠ .nodeSet ∧ b.kind ≠ .nodeSet) ∨ a.kind = .boolean ∨ b.kind = .boolean →
      Comparison.ne.holds v a b = !Comparison.eq.holds v a b) ∧
    (a.kind = .nodeSet ∨ b.kind = .nodeSet → a.kind ≠ .boolean → b.kind ≠ .boolean →
      (∀ s, a = .nodeSet s ∨ b = .nodeSet s → s.isEmpty = false) →
      Comparison.eq.holds v a b = false → Comparison.ne.holds v a b = true) := by
  refine ⟨fun op => ?_, fun h => ?_, fun hset ha hb hnodes h => ?_⟩
  · rw [Bool.eq_iff_iff, Comparison.holds_iff, Comparison.holds_iff]
    exact op.asks_mirrored a b
  · rw [Bool.eq_iff_iff, Bool.not_eq_true', ← Bool.not_eq_true, Comparison.holds_iff,
      Comparison.holds_iff]
    exact Comparison.asks_ne h
  · rw [← Bool.not_eq_true, Comparison.holds_iff] at h
    exact Comparison.holds_iff _ |>.2 (Comparison.asks_ne_of_not_asks_eq hset ha hb hnodes h)

/-- NaN differs from itself.  No paragraph of the sample is `Hi`, so some paragraph differs. -/
theorem comparisons_mirrored_sample :
    Comparison.gt.holds (Forest.indexed [.sample]) (.string "Hi") .sampleParagraphs =
      Comparison.lt.holds (Forest.indexed [.sample]) .sampleParagraphs (.string "Hi") ∧
    Comparison.eq.holds (Forest.indexed [.sample]) (.number Number.nan) (.number Number.nan) =
      false ∧
    Comparison.ne.holds (Forest.indexed [.sample]) (.number Number.nan) (.number Number.nan) =
      true ∧
    Comparison.eq.holds (Forest.indexed [.sample]) .sampleParagraphs (.string "Hi") = false ∧
    Comparison.ne.holds (Forest.indexed [.sample]) .sampleParagraphs (.string "Hi") = true := by
  have hnan : Comparison.eq.holds (Forest.indexed [.sample]) (.number Number.nan)
      (.number Number.nan) = false := by decide +kernel
  have hset : Comparison.eq.holds (Forest.indexed [.sample]) .sampleParagraphs (.string "Hi") =
      false := by decide +kernel
  obtain ⟨-, hscalars, -⟩ := comparisons_mirrored (Forest.indexed [.sample]) (.number Number.nan)
    (.number Number.nan)
  obtain ⟨hmirrored, -, hnodes⟩ := comparisons_mirrored (Forest.indexed [.sample])
    .sampleParagraphs (.string "Hi")
  refine ⟨hmirrored .lt, hnan, ?_, hset, ?_⟩
  · rw [hscalars (.inl (by decide)), hnan]
    rfl
  · refine hnodes (.inl rfl) (by decide) (by decide) ?_ hset
    rintro s (⟨⟨⟩⟩ | ⟨⟨⟩⟩)
    rfl

end XPath
