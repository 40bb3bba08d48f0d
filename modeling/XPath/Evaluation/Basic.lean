/-
The state and the surroundings of an evaluation.

An evaluation can fail, and it has a state that failure does not undo: the lines that functions
have logged, and how far the predicates around the expression have got with their candidates.
The latter matters only to the size of the context, which is counted when it is first asked
for.

* `Stage`, `State`, `Eval` — the state and the actions on it;
* `Context` — the node, position and size that an expression is evaluated with;
* `Setting` — what stays the same during an evaluation;
* `Argument`, `Call`, `Function`, `Library` — functions, which get their arguments unevaluated;
* `Library.numberOf` — the conversion to numbers, by the function `number` of the library.
-/
import XPath.Sequence.Basic
import XPath.Expr.Basic
import XPath.Tree.Forest

namespace XPath

/-- How far one predicate has got with its candidates. -/
structure Stage where
  /-- The candidates it has kept. -/
  kept : Sequence
  /-- How many candidates it has taken. -/
  taken : Nat
  /-- How many times it has tried to take one, in vain or not. -/
  tried : Nat
  /-- It has picked one by its position and wants no more. -/
  closed : Bool
  deriving DecidableEq, Repr

/-- What an evaluation changes. -/
structure State where
  /-- The lines logged so far, newest first. -/
  log : List String
  /-- The predicates before the one being evaluated, in the same step, nearest first. -/
  stages : List Stage
  deriving DecidableEq, Repr

/-- The state before an evaluation. -/
def State.start : State := ⟨[], []⟩

abbrev Eval := EStateM Error State

def Eval.log (line : String) : Eval Unit := modify fun s => { s with log := line :: s.log }

/-- A result that is known without any action. -/
def Eval.ofExcept {α : Type} : Except Error α → Eval α
  | .ok a => pure a
  | .error e => throw e

structure Context where
  node : Node
  /-- The position of the node among the candidates, counted from one. -/
  position : Nat
  /-- Counts the candidates. -/
  size : Eval Nat

/-- The context of a node on its own. -/
def Context.alone (n : Node) : Context := ⟨n, 1, pure 1⟩

/-- What stays the same during an evaluation. -/
structure Setting where
  view : View
  /-- The document of the context node. -/
  document : Node
  /-- Where absolute paths start, and what `following` and `preceding` do not leave. -/
  root : Node
  namespaces : Namespaces
  bindings : List (String × Value)
  /-- Whether a variable without a value is an error rather than the empty string. -/
  strict : Bool

/-- The setting of a tree on its own, without variables. -/
def Setting.ofTree (t : Tree) : Setting where
  view := Forest.indexed [t]
  document := ⟨0, 0⟩
  root := ⟨0, 0⟩
  namespaces := .none
  bindings := []
  strict := true

/-- An argument as a function gets it. -/
structure Argument where
  value : Context → Eval Value
  /-- The truth of the value, which may be known before all of the value is. -/
  truth : Context → Eval Bool

/-- An argument with a known value. -/
def Argument.constant (value : Value) : Argument :=
  ⟨fun _ => pure value, fun _ => pure value.toBool⟩

structure Call where
  setting : Setting
  context : Context
  arguments : List Argument
  numberOf : Context → Value → Eval Float

abbrev Function := Call → Eval Value

/-- Finds functions by name, and perhaps by the context of the call. -/
abbrev Library := QName → Setting → Context → Option Function

/-- Converts a value to a number.  Strings and node-sets go through the function `number` of the
library, called on the string as its argument; without one they convert as values do. -/
def Library.numberOf (library : Library) (setting : Setting) (context : Context) (value : Value) :
    Eval Float :=
  let plain := fun (value : Value) => value.toNumber setting.view
  let converted := fun (text : String) =>
    match library ⟨none, "number"⟩ setting context with
    | none => pure (plain value)
    | some function => do
      let result ← function {
        setting := setting
        context := .alone context.node
        arguments := [.constant (.string text)]
        -- Without the library, or `number` would be called again from within.
        numberOf := fun _ value => pure (plain value) }
      return plain result
  match value with
  | .string s => converted s
  | .nodeSet s => converted (s.toText setting.view)
  | .number _ | .boolean _ => pure (plain value)

end XPath
