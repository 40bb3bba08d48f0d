/-
The operators with two operands and the forms of syntax that write them.
-/
import XPath.Syntax.Basic
import XPath.Value.Operator

namespace XPath

/-- An operator with two operands. -/
inductive BinaryOperator where
  | or
  | and
  | union
  | comparison (op : Comparison)
  | arithmetic (op : Arithmetic)
  deriving DecidableEq, Repr

namespace BinaryOperator

/-- The sign that writes an operator. -/
def symbol : BinaryOperator → String
  | or => "or"
  | and => "and"
  | union => "|"
  | comparison op => op.symbol
  | arithmetic op => op.symbol

/-- The form of syntax that writes an operator. -/
def form : BinaryOperator → SyntaxKind
  | or => .orExpr
  | and => .andExpr
  | union => .unionExpr
  | comparison .eq => .eqExpr
  | comparison .ne => .neExpr
  | comparison .lt => .ltExpr
  | comparison .le => .lteExpr
  | comparison .gt => .gtExpr
  | comparison .ge => .gteExpr
  | arithmetic .add => .addExpr
  | arithmetic .subtract => .subtractExpr
  | arithmetic .multiply => .multiplyExpr
  | arithmetic .divide => .divideExpr
  | arithmetic .modulo => .moduloExpr

/-- The operator that a form of syntax writes. -/
def ofForm? : SyntaxKind → Option BinaryOperator
  | .orExpr => some or
  | .andExpr => some and
  | .unionExpr => some union
  | .eqExpr => some (comparison .eq)
  | .neExpr => some (comparison .ne)
  | .ltExpr => some (comparison .lt)
  | .lteExpr => some (comparison .le)
  | .gtExpr => some (comparison .gt)
  | .gteExpr => some (comparison .ge)
  | .addExpr => some (arithmetic .add)
  | .subtractExpr => some (arithmetic .subtract)
  | .multiplyExpr => some (arithmetic .multiply)
  | .divideExpr => some (arithmetic .divide)
  | .moduloExpr => some (arithmetic .modulo)
  | _ => none

/-- An operator is written by one form, and only by that. -/
theorem ofForm?_eq_some_iff {kind : SyntaxKind} {op : BinaryOperator} :
    ofForm? kind = some op ↔ kind = op.form := by
  constructor
  · intro h
    cases kind <;> simp only [ofForm?, Option.some.injEq, reduceCtorEq] at h <;> subst h <;> rfl
  · rintro rfl
    cases op with
    | comparison op => cases op <;> rfl
    | arithmetic op => cases op <;> rfl
    | or | and | union => rfl

end BinaryOperator

end XPath
