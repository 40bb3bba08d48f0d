/-
Arithmetic and comparison of values.

Numbers compute as doubles.  A comparison between scalars is about truth values if it asks for
equality and one of them is a truth value, about numbers if it asks for order or one of them is
a number, and about strings otherwise.  A node-set holds to a comparison if one of its nodes
does, taken as its string-value; against a truth value it counts as whether it has nodes.

The conversion of strings to numbers is a parameter, and may have effects: it is asked for the
left operand before the right one, and for the nodes of a set in turn until one holds.

* `Arithmetic`, `Arithmetic.apply` — the arithmetic operators;
* `Comparison`, `Comparison.holds` — the comparison operators on any two values.
-/
import XPath.Value.Basic
import XPath.Number.Binary

namespace XPath

inductive Arithmetic where
  | add
  | subtract
  | multiply
  | divide
  | modulo
  deriving DecidableEq, Repr

namespace Arithmetic

/-- The sign that writes an operator. -/
def symbol : Arithmetic → String
  | add => "+"
  | subtract => "-"
  | multiply => "*"
  | divide => "div"
  | modulo => "mod"

/-- What an operator computes; the remainder has the sign of the left operand. -/
def apply : Arithmetic → Float → Float → Float
  | add, x, y => x + y
  | subtract, x, y => x - y
  | multiply, x, y => x * y
  | divide, x, y => x / y
  | modulo, x, y => Number.remainder x y

end Arithmetic

inductive Comparison where
  | eq
  | ne
  | lt
  | le
  | gt
  | ge
  deriving DecidableEq, Repr

namespace Comparison

/-- The sign that writes an operator. -/
def symbol : Comparison → String
  | eq => "="
  | ne => "!="
  | lt => "<"
  | le => "<="
  | gt => ">"
  | ge => ">="

/-- Whether an operator asks for equality rather than order. -/
def isEquality : Comparison → Bool
  | eq | ne => true
  | _ => false

/-- Compares two numbers. NaN is equal to nothing and comes before nothing. -/
def onNumbers : Comparison → Float → Float → Bool
  | eq, x, y => x == y
  | ne, x, y => x != y
  | lt, x, y => x < y
  | le, x, y => x ≤ y
  | gt, x, y => y < x
  | ge, x, y => y ≤ x

/-- Turns the answer to whether two things are equal into the answer of an operator that asks
for equality. -/
def onEquality (op : Comparison) (equal : Bool) : Bool := if op = ne then !equal else equal

variable {m : Type → Type} [Monad m] (v : View) (number : Value → m Float)

/-- Compares two values as numbers. -/
def convertedHolds (op : Comparison) (a b : Value) : m Bool := do
  let x ← number a
  let y ← number b
  return op.onNumbers x y

def scalarsHold (op : Comparison) (a b : Value) : m Bool :=
  if op.isEquality then
    match a, b with
    | .boolean _, _ | _, .boolean _ => pure (op.onEquality (a.toBool == b.toBool))
    | .number _, _ | _, .number _ => convertedHolds number op a b
    | _, _ => pure (op.onEquality (a.toText v == b.toText v))
  else convertedHolds number op a b

/-- The string-value of a node, as a value. -/
def nodeText (n : Node) : Value := .string (v.stringValue n)

/-- Compares any two values. -/
def holdsWith (op : Comparison) (a b : Value) : m Bool :=
  match a, b with
  | .nodeSet s, .boolean _ => scalarsHold v number op (.boolean !s.isEmpty) b
  | .boolean _, .nodeSet t => scalarsHold v number op a (.boolean !t.isEmpty)
  | .nodeSet s, .nodeSet t =>
    s.nodes.anyM fun n =>
      t.nodes.anyM fun k => scalarsHold v number op (nodeText v n) (nodeText v k)
  | .nodeSet s, _ => s.nodes.anyM fun n => scalarsHold v number op (nodeText v n) b
  | _, .nodeSet t => t.nodes.anyM fun n => scalarsHold v number op a (nodeText v n)
  | _, _ => scalarsHold v number op a b

/-- Compares any two values, with the conversion to numbers that values have of their own. -/
def holds (op : Comparison) (a b : Value) : Bool :=
  Id.run (holdsWith v (fun value => pure (value.toNumber v)) op a b)

end Comparison

end XPath
