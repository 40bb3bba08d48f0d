/-
Evaluating expressions again and again.

An engine holds what evaluations have in common: the library of functions, the values of
variables, the options and the compiled expressions.  The document, the context node and the
namespaces come with each request.

* `Options`, `Engine` — the state;
* `Engine.compile`, `Engine.evaluate` — the requests, which only change what is kept compiled;
* `Engine.evaluateString`, … — requests for a result of a given type.
-/
import XPath.Library.Registry
import XPath.Query.Cache
import XPath.Query.Shape

namespace XPath

structure Options where
  /-- How many compiled expressions to keep. -/
  capacity : Nat := 256
  /-- Whether a variable without a value is an error. -/
  strict : Bool := true
  deriving DecidableEq, Repr

/-- What evaluations have in common. -/
structure Engine where
  library : Library
  bindings : List (String × Value)
  options : Options
  cache : Cache

/-- What an expression is evaluated against. -/
structure Target where
  view : View
  node : Node
  /-- Where absolute paths start; the document of the node if there is none. -/
  root : Option Node
  namespaces : Namespaces

/-- The setting that a target makes with an engine. -/
def Target.setting (t : Target) (e : Engine) : Setting where
  view := t.view
  document := t.view.document t.node
  root := t.root.getD (t.view.document t.node)
  namespaces := t.namespaces
  bindings := e.bindings
  strict := e.options.strict

/-- How a target makes expressions be understood with an engine. -/
def Target.interpretation (t : Target) (e : Engine) : Interpretation :=
  .standard e.library (t.setting e)

namespace Engine

/-- An engine with the core functions and without variables. -/
def new : Engine :=
  let options : Options := {}
  ⟨Registry.core.library, [], options, .empty options.capacity⟩

def withLibrary (e : Engine) (library : Library) : Engine := { e with library := library }

def withVariable (e : Engine) (name : String) (value : Value) : Engine :=
  { e with bindings := (name, value) :: e.bindings.filter (·.1 ≠ name) }

/-- Replaces the options. Nothing stays compiled, but compilations are counted on. -/
def withOptions (e : Engine) (options : Options) : Engine :=
  { e with
    options := options
    cache := { e.cache with capacity := options.capacity, entries := [] } }

/-- Compiles an expression, or takes what is kept for it. -/
def compile (t : SyntaxTree) : StateM Engine (Except Error Compiled) := fun e =>
  let (result, cache) := e.cache.compile t
  (result, { e with cache := cache })

def evaluate (t : SyntaxTree) (target : Target) (shape : Shape) :
    StateM Engine (Outcome Value) := do
  match ← compile t with
  | .error error => return ⟨.error error, []⟩
  | .ok compiled =>
    let e ← get
    return .ofEval (shape.evaluate (target.interpretation e) compiled.expr target.node)

/-- The value of an expression as a string. -/
def evaluateString (t : SyntaxTree) (target : Target) : StateM Engine (Outcome String) := do
  return (← evaluate t target .string).map (·.toText target.view)

/-- The value of an expression as a number. -/
def evaluateNumber (t : SyntaxTree) (target : Target) : StateM Engine (Outcome Float) := do
  return (← evaluate t target .number).map (·.toNumber target.view)

/-- The truth of an expression. -/
def evaluateBoolean (t : SyntaxTree) (target : Target) : StateM Engine (Outcome Bool) := do
  return (← evaluate t target .boolean).map (·.toBool)

/-- The nodes of a value that must be a node-set. -/
def nodesOf : Value → Except Error (List Node)
  | .nodeSet s => .ok s.nodes
  | other => .error (.resultNotNodeSet other.kind)

/-- The nodes that an expression selects, in document order. -/
def evaluateNodes (t : SyntaxTree) (target : Target) : StateM Engine (Outcome (List Node)) := do
  return (← evaluate t target .ordered).bind nodesOf

/-- The first node that an expression selects. -/
def evaluateFirstNode (t : SyntaxTree) (target : Target) :
    StateM Engine (Outcome (Option Node)) := do
  return ((← evaluate t target .first).bind nodesOf).map (·.head?)

/-- The first node that an expression selects; it must select one. -/
def evaluateRequiredNode (t : SyntaxTree) (target : Target) : StateM Engine (Outcome Node) := do
  return (← evaluateFirstNode t target).bind fun
    | some n => .ok n
    | none => .error (.nothingSelected t.text)

/-- The nodes that an expression selects, in document order; it must select one. -/
def evaluateRequiredNodes (t : SyntaxTree) (target : Target) :
    StateM Engine (Outcome (List Node)) := do
  return (← evaluateNodes t target).bind fun nodes =>
    if nodes.isEmpty then .error (.nothingSelected t.text) else .ok nodes

end Engine

end XPath
