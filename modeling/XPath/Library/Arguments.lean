/-
How functions take their arguments.

A function is made from its name, which its errors give, and what it does with the right number
of arguments.  Nothing is evaluated before the arguments have been counted.
-/
import XPath.Evaluation.Basic

namespace XPath

namespace Call

variable (c : Call)

def view : View := c.setting.view

/-- An argument as a string. -/
def string (a : Argument) : Eval String := do return (← a.value c.context).toText c.view

/-- An argument as a number. -/
def number (a : Argument) : Eval Float := do c.numberOf c.context (← a.value c.context)

/-- The truth of an argument. -/
def truth (a : Argument) : Eval Bool := a.truth c.context

/-- An argument that must be a node-set. -/
def nodes (name : String) (a : Argument) : Eval NodeSet := do
  match ← a.value c.context with
  | .nodeSet s => return s
  | other => throw (.functionFailed name (.notNodeSet other.kind))

/-- An argument as a string, the string-value of the context node if there is none. -/
def stringOrContext : Option Argument → Eval String
  | some a => c.string a
  | none => pure (c.view.stringValue c.context.node)

/-- The first node of an argument that must be a node-set, the context node if there is none. -/
def nodeOrContext (name : String) : Option Argument → Eval (Option Node)
  | some a => do return (← c.nodes name a).first? c.view
  | none => pure (some c.context.node)

end Call

namespace Function

/-- Refuses the number of arguments. -/
def refuse {α : Type} (name : String) (expected : Arity) (c : Call) : Eval α :=
  throw (.functionFailed name (.arity expected c.arguments.length))

/-- A function without arguments. -/
def nullary (name : String) (f : Call → Eval Value) : Function := fun c =>
  match c.arguments with
  | [] => f c
  | _ => refuse name (.exactly 0) c

/-- A function of one argument. -/
def unary (name : String) (f : Call → Argument → Eval Value) : Function := fun c =>
  match c.arguments with
  | [a] => f c a
  | _ => refuse name (.exactly 1) c

/-- A function of at most one argument. -/
def optional (name : String) (f : Call → Option Argument → Eval Value) : Function := fun c =>
  match c.arguments with
  | [] => f c none
  | [a] => f c (some a)
  | _ => refuse name (.range 0 1) c

def binary (name : String) (f : Call → Argument → Argument → Eval Value) : Function := fun c =>
  match c.arguments with
  | [a, b] => f c a b
  | _ => refuse name (.exactly 2) c

/-- A function of two or three arguments. -/
def twoOrThree (name : String)
    (f : Call → Argument → Argument → Option Argument → Eval Value) : Function := fun c =>
  match c.arguments with
  | [a, b] => f c a b none
  | [a, b, d] => f c a b (some d)
  | _ => refuse name (.range 2 3) c

def ternary (name : String) (f : Call → Argument → Argument → Argument → Eval Value) : Function :=
  fun c =>
    match c.arguments with
    | [a, b, d] => f c a b d
    | _ => refuse name (.exactly 3) c

/-- A function of two arguments or more. -/
def twoOrMore (name : String) (f : Call → List Argument → Eval Value) : Function := fun c =>
  match c.arguments with
  | a :: b :: rest => f c (a :: b :: rest)
  | _ => refuse name (.atLeast 2) c

end Function

end XPath
