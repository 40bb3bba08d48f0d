/-
The core functions about numbers: `number`, `sum`, `floor`, `ceiling` and `round`.
-/
import XPath.Library.Arguments

namespace XPath.Core

/-- `number(object?)`: the conversion that values have of their own, even if the library converts
strings in another way. -/
def number : Function := .optional "number" fun c a => do
  match a with
  | some a => return .number ((← a.value c.context).toNumber c.view)
  | none => return .number (Number.read (c.view.stringValue c.context.node))

/-- `sum(nodes)`: the sum of the numbers that the string-values of the nodes convert to. -/
def sum : Function := .unary "sum" fun c a => do
  let nodes := (← c.nodes "sum" a).nodes
  let add := fun (total : Float) n => do
    return total + (← c.numberOf c.context (.string (c.view.stringValue n)))
  return .number (← nodes.foldlM add 0)

/-- A function of one number. -/
def ofNumber (name : String) (f : Float → Float) : Function := .unary name fun c a => do
  return .number (f (← c.number a))

def floor : Function := ofNumber "floor" Number.floor

def ceiling : Function := ofNumber "ceiling" Number.ceiling

def round : Function := ofNumber "round" Number.round

end XPath.Core
