/-
Functions beyond the core.

They show what a library can do: convert strings to numbers in a way of its own, log what it is
asked for, evaluate its arguments twice, not at all or in another context, and fail.

* `Extension.commaNumber`, … — replacements of `number` and `count`;
* `Extension.functions` — functions with the qualifier `x`;
* `Extension.answer` — a library that depends on the context.
-/
import XPath.Library.Registry

namespace XPath.Extension

/-- Where a call takes place: the number of the context node and the position. -/
def placeText (c : Context) : String := toString c.node.id ++ ":" ++ toString c.position

/-- A function of the string of its first argument, or of the context node. -/
def onString (f : Call → String → Eval Value) : Function := fun c => do
  f c (← c.stringOrContext c.arguments.head?)

/-- A `number` that takes the comma for a point. -/
def commaNumber : Function := onString fun _ s =>
  pure (.number (Number.read (s.map fun c => if c == ',' then '.' else c)))

/-- A `number` that always fails. -/
def failingNumber : Function := fun _ =>
  throw (.functionFailed "number" (.reason "no numbers here"))

/-- A `number` that is always true. -/
def truthNumber : Function := fun _ => pure (.boolean true)

/-- A `number` whose result is a string, the argument with a zero after it. -/
def textNumber : Function := fun c => do
  match c.arguments with
  | a :: _ => return .string ((← c.string a) ++ "0")
  | [] => return .string ""

/-- A `number` that logs what it converts and where. -/
def tracedNumber : Function := onString fun c s => do
  let size ← c.context.size
  Eval.log ("number(" ++ s ++ ")@" ++ placeText c.context ++ ":" ++ toString size)
  return .number (Number.read s)

/-- A `count` that is always minus one. -/
def negativeCount : Function := fun _ => pure (.number (-1))

/-- A function of `x` that needs an argument and does not look at those after it. -/
def withOne (name : String) (f : Call → Argument → List Argument → Eval Value) : Function :=
  fun c =>
    match c.arguments with
    | a :: rest => f c a rest
    | [] => Function.refuse name (.atLeast 1) c

/-- `trace(label, value?)`: logs the label and the place, then gives the value, or true. -/
def trace : Function := withOne "x:trace" fun c label rest => do
  let label ← c.string label
  Eval.log (label ++ "@" ++ placeText c.context)
  match rest with
  | value :: _ => value.value c.context
  | [] => return .boolean true

/-- `double(number)`. -/
def double : Function := withOne "x:double" fun c a _ => do return .number (2 * (← c.number a))

/-- `again(object)`: evaluates its argument twice. -/
def again : Function := withOne "x:again" fun c a _ => do
  let _ ← a.value c.context
  a.value c.context

/-- `fail(message)`: fails with the message. -/
def fail : Function := withOne "x:fail" fun c a _ => do
  throw (.functionFailed "x:fail" (.reason (← c.string a)))

/-- `if(condition, then, else)`: evaluates only one of the last two. -/
def choose : Function := fun c =>
  match c.arguments with
  | condition :: yes :: no :: _ => do
    if ← c.truth condition then yes.value c.context else no.value c.context
  | _ => Function.refuse "x:if" (.atLeast 3) c

/-- `at(nodes, object)`: evaluates the second argument at the first node of the first, if it has
one. -/
def evaluateAt : Function := fun c =>
  match c.arguments with
  | nodes :: a :: _ => do
    match ← nodes.value c.context with
    | .nodeSet s =>
      match s.first? c.view with
      | some n => a.value (.alone n)
      | none => return .string ""
    | _ => throw (.functionFailed "x:at" (.reason "not a node-set"))
  | _ => Function.refuse "x:at" (.atLeast 2) c

/-- The functions with the qualifier `x`. -/
def functions : List (String × Function) :=
  [("trace", trace), ("double", double), ("if", choose), ("again", again), ("at", evaluateAt),
   ("fail", fail)]

/-- Adds the functions with the qualifier `x` to a table. -/
def addAll (r : Registry) : Registry :=
  functions.foldl (fun r (name, f) => r.add ⟨some "x", name⟩ f) r

/-- A library whose only function is `answer`, which is 42 and is not there for attributes. -/
def answer : Library := fun name setting context =>
  if name = ⟨none, "answer"⟩ ∧ setting.view.isAttribute context.node = false then
    some fun _ => pure (.number 42)
  else none

end XPath.Extension
