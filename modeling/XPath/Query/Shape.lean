/-
The results that a caller can ask for.

* `Shape`, `Shape.evaluate` — the value of an expression, converted as asked;
* `Outcome` — a result or an error, with what was logged on the way.
-/
import XPath.Evaluation.Meaning

namespace XPath

/-- What kind of value is asked for. -/
inductive Shape where
  /-- What the expression gives. -/
  | any
  | string
  | number
  | boolean
  /-- A node-set as it was found. -/
  | nodeSet
  | ordered
  /-- The first node of a node-set in document order, as a node-set. -/
  | first
  deriving DecidableEq, Repr

namespace Shape

/-- The node-set that a value must be. -/
def nodes : Value → Eval NodeSet
  | .nodeSet s => pure s
  | other => throw (.resultNotNodeSet other.kind)

/-- Evaluates an expression in the context of a node on its own, and converts the value. -/
def evaluate (i : Interpretation) (e : Expr) (n : Node) (shape : Shape) : Eval Value := do
  let view := i.setting.view
  let meaning := e.meaning i
  let context := Context.alone n
  match shape with
  | any => meaning.value context
  | string => return .string ((← meaning.value context).toText view)
  | number => return .number (← i.numberOf context (← meaning.value context))
  | boolean => return .boolean (← meaning.truth context)
  | nodeSet => return .nodeSet (← nodes (← meaning.value context))
  | ordered => return .nodeSet ((← nodes (← meaning.value context)).sorted view)
  | first =>
    return .nodeSet ⟨((← nodes (← meaning.value context)).first? view).toList⟩

end Shape

/-- How an evaluation ends. -/
structure Outcome (α : Type) where
  result : Except Error α
  /-- The lines that were logged, oldest first. -/
  log : List String

namespace Outcome

/-- How an action ends that starts afresh. -/
def ofEval {α : Type} (action : Eval α) : Outcome α :=
  match action .start with
  | .ok a s => ⟨.ok a, s.log.reverse⟩
  | .error e s => ⟨.error e, s.log.reverse⟩

/-- An outcome whose result is taken further. -/
def bind {α β : Type} (o : Outcome α) (f : α → Except Error β) : Outcome β :=
  ⟨o.result.bind f, o.log⟩

/-- An outcome whose result is converted. -/
def map {α β : Type} (f : α → β) (o : Outcome α) : Outcome β := ⟨o.result.map f, o.log⟩

end Outcome

end XPath
