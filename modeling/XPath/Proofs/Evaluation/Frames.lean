/-
Parts of expressions.

What an expression means depends on its parts only through what these mean.  So another meaning can
be put in the place of a part, and what the whole comes to is said by the same recursion.  Whatever
is in accord stays so in any place.

* `Meaning.binary` — what an operator makes of two meanings;
* `Frame`, `Frame.put`, `Frame.meaning` — an expression with a place for a part, at any depth;
* `Frame.meaning_put` — a part enters an expression with what it means;
* `Accord.meanings_slot`, `Accord.meanings_frame` — meanings in accord, put in a place.
-/
import XPath.Proofs.Evaluation.Slots

namespace XPath

/-! ### Operators -/

namespace Meaning

/-- What an operator makes of two meanings. -/
def binary (i : Interpretation) : BinaryOperator → Meaning → Meaning → Meaning
  | .or => connective true
  | .and => connective false
  | .union => union i
  | .comparison op => comparison i op
  | .arithmetic op => arithmetic i op

end Meaning

theorem Expr.meaning_binary (i : Interpretation) (op : BinaryOperator) (l r : Expr) :
    (binary op l r).meaning i = .binary i op (l.meaning i) (r.meaning i) := by
  cases op <;> rw [binary, meaning, Meaning.binary]

/-! ### Frames -/

/-- An expression with a place for a part of it, at any depth. -/
inductive Frame where
  /-- The part is all of the expression. -/
  | whole
  | left (op : BinaryOperator) (inner : Frame) (r : Expr)
  | right (op : BinaryOperator) (l : Expr) (inner : Frame)
  | negate (inner : Frame)
  | argument (name : QName) (before : List Expr) (inner : Frame) (after : List Expr)
  | primary (inner : Frame) (predicates : List Expr) (steps : List (Step Expr))
  | predicate (slot : Slot) (inner : Frame)

namespace Frame

/-- The expression with a part put in its place. -/
def put : Frame → Expr → Expr
  | whole, e => e
  | left op inner r, e => .binary op (inner.put e) r
  | right op l inner, e => .binary op l (inner.put e)
  | negate inner, e => .negate (inner.put e)
  | argument name before inner after, e => .call name (before ++ inner.put e :: after)
  | primary inner predicates steps, e => .path (.filter (inner.put e) predicates) steps
  | predicate slot inner, e => slot.path (inner.put e)

variable (i : Interpretation)

/-- What the expression means with a meaning in the place. -/
def meaning : Frame → Meaning → Meaning
  | whole, m => m
  | left op inner r, m => .binary i op (inner.meaning m) (r.meaning i)
  | right op l inner, m => .binary i op (l.meaning i) (inner.meaning m)
  | negate inner, m => .negation i (inner.meaning m)
  | argument name before inner after, m =>
    .call i name (Expr.meanings i before ++ inner.meaning m :: Expr.meanings i after)
  | primary inner predicates steps, m =>
    i.path (.filter (inner.meaning m) (Expr.meanings i predicates)) (Expr.stepMeanings i steps)
  | predicate slot inner, m => slot.meaning i (inner.meaning m)

/-- A part enters an expression with what it means. -/
theorem meaning_put (frame : Frame) (e : Expr) :
    (frame.put e).meaning i = frame.meaning i (e.meaning i) := by
  induction frame with
  | whole => rfl
  | left op inner r ih => rw [put, Expr.meaning_binary, ih, meaning]
  | right op l inner ih => rw [put, Expr.meaning_binary, ih, meaning]
  | negate inner ih => rw [put, Expr.meaning, ih, meaning]
  | argument name before inner after ih =>
    rw [put, Expr.meaning, Expr.meanings_append, Expr.meanings, ih, meaning]
  | primary inner predicates steps ih => rw [put, Expr.meaning, Expr.startMeaning, ih, meaning]
  | predicate slot inner ih => rw [put, Slot.meaning_path, ih, meaning]

end Frame

/-! ### Accords -/

namespace Accord

variable {ι : Type} {A : Accord ι} {i j : Interpretation} (h : A.Interpretations i j)
  {m m' : Meaning}

include h

theorem meanings_binary (op : BinaryOperator) {l l' r r' : Meaning} (hl : A.Meanings l l')
    (hr : A.Meanings r r') : A.Meanings (.binary i op l r) (.binary j op l' r') := by
  cases op with
  | or => exact meanings_connective true hl hr
  | and => exact meanings_connective false hl hr
  | union => exact meanings_union h hl hr
  | comparison op => exact meanings_comparison h op hl hr
  | arithmetic op => exact meanings_arithmetic h op hl hr

variable (hm : A.Meanings m m')

include hm

theorem meanings_among (before after : List Expr) :
    List.Forall₂ A.Meanings (Expr.meanings i before ++ m :: Expr.meanings i after)
      (Expr.meanings j before ++ m' :: Expr.meanings j after) :=
  List.rel_append (meanings_meanings h before) (.cons hm (meanings_meanings h after))

theorem starts_slot (slot : Slot) : A.Starts (slot.start i m) (slot.start j m') := by
  cases slot with
  | step start before axis test earlier later after => exact starts_startMeaning h start
  | filter primary earlier later steps =>
    exact .filter (meanings_meaning h primary) (meanings_among h hm earlier later)

theorem steps_slot (slot : Slot) : List.Forall₂ A.Steps (slot.steps i m) (slot.steps j m') := by
  cases slot with
  | step start before axis test earlier later after =>
    exact List.rel_append (steps_stepMeanings h before)
      (.cons ⟨rfl, rfl, meanings_among h hm earlier later⟩ (steps_stepMeanings h after))
  | filter primary earlier later steps => exact steps_stepMeanings h steps

/-- Paths are in accord with meanings in accord in their place. -/
theorem meanings_slot (slot : Slot) : A.Meanings (slot.meaning i m) (slot.meaning j m') :=
  h.path (starts_slot h hm slot) (steps_slot h hm slot)

/-- So are expressions with a part at any depth. -/
theorem meanings_frame (frame : Frame) : A.Meanings (frame.meaning i m) (frame.meaning j m') := by
  induction frame with
  | whole => exact hm
  | left op inner r ih => exact meanings_binary h op ih (meanings_meaning h r)
  | right op l inner ih => exact meanings_binary h op (meanings_meaning h l) ih
  | negate inner ih => exact meanings_negation h ih
  | argument name before inner after ih =>
    exact meanings_call h name (meanings_among h ih before after)
  | primary inner predicates steps ih =>
    exact h.path (.filter ih (meanings_meanings h predicates)) (steps_stepMeanings h steps)
  | predicate slot inner ih => exact meanings_slot h ih slot

end Accord

end XPath
