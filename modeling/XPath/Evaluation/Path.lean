/-
Location paths.

A path is followed node by node: a node that a step leads to is taken through all further steps
before the step is asked for its next node.  So a path that is only asked whether it leads
anywhere stops at the first node it arrives at.  Each step passes a node on only once.

The namespaces of the steps are looked up before the path is followed.  Only a step that restores
document order needs all its nodes first: what comes before it is followed to the end before the
steps after it are looked at.

* `Meaning` — what evaluation knows of an expression;
* `Stride`, `Path.follow` — steps that are ready to be taken;
* `Path.select`, `Path.evaluate`, `Path.exists` — what a path selects.
-/
import XPath.Evaluation.Candidates

namespace XPath

/-- What an expression means in a setting. -/
structure Meaning extends Argument where
  /-- What it says about a candidate when it is a predicate. -/
  predicate : Predicate

namespace Meaning

/-- An expression of which only the value matters. -/
def ofValue (value : Context → Eval Value) : Meaning where
  value := value
  truth := fun c => do return (← value c).toBool
  predicate := .test fun c => do return .ofValue c.position (← value c)

/-- An expression whose truth can be had without its value. -/
def ofTruth (value : Context → Eval Value) (truth : Context → Eval Bool) : Meaning where
  value := value
  truth := truth
  predicate := .test fun c => do return .ofBool (← truth c)

end Meaning

/-- A step that is ready to be taken. -/
structure Stride where
  /-- The nodes on the axis that pass the test. -/
  candidates : Node → List Node
  /-- The predicates, last to first. -/
  predicates : List Predicate

/-- Makes a step ready. -/
def Stride.ofStep (setting : Setting) (step : Step Meaning) : Except Error Stride := do
  let uri ← step.test.uri step.axis setting.namespaces
  let view := setting.view
  return {
    candidates := fun n =>
      (view.walk step.axis n setting.root).filter (step.test.accepts view.toLinks step.axis uri)
    predicates := (step.predicates.map (·.predicate)).reverse }

namespace Path

/-- What has been met while a path is followed. -/
structure Progress where
  /-- The nodes that the steps have passed on, each with the number of steps that were left. -/
  seen : List (Nat × Node)
  /-- The nodes arrived at, in order. -/
  found : List Node

/-- Whether to stop: if one node is enough, as soon as there is one. -/
def Progress.enough (once : Bool) (p : Progress) : Bool := once && !p.found.isEmpty

/-- Follows steps from a node. -/
def follow (once : Bool) : List Stride → Node → Progress → Eval Progress
  | [], n, p => pure { p with found := p.found ++ [n] }
  | stride :: rest, n, p =>
    let visit := fun m (p : Progress) =>
      if (rest.length, m) ∈ p.seen then pure p
      else follow once rest m { p with seen := (rest.length, m) :: p.seen }
    Candidates.each (stride.candidates n) stride.predicates (Progress.enough once) visit p

/-- Follows steps from all nodes that predicates keep, and gives the nodes arrived at. -/
def collect (once : Bool) (nodes : List Node) (predicates : List Predicate)
    (strides : List Stride) : Eval (List Node) := do
  let visit := follow once strides
  return (← Candidates.each nodes predicates (Progress.enough once) visit ⟨[], []⟩).found

/-- Makes steps ready one after the other and follows them from the nodes that predicates keep.
`strides` holds the steps that are ready and not yet followed. -/
def selectFrom (setting : Setting) (once : Bool) :
    List Node → List Predicate → List Stride → List (Step Meaning) → Eval (List Node)
  | nodes, predicates, strides, [] => collect once nodes predicates strides
  | nodes, predicates, strides, step :: rest => do
    let stride ← Eval.ofExcept (Stride.ofStep setting step)
    let strides := strides ++ [stride]
    if step.axis.restoresOrder then
      -- Sorting needs all nodes, also when one is enough in the end.
      let found ← collect false nodes predicates strides
      selectFrom setting once (setting.view.sort found) [] [] rest
    else selectFrom setting once nodes predicates strides rest

/-- The nodes and predicates that a path starts with. -/
def startNodes (setting : Setting) (context : Context) :
    Start Meaning → Eval (List Node × List Predicate)
  | .root => return ([setting.root], [])
  | .context => return ([context.node], [])
  | .filter primary predicates => do
    match ← primary.value context with
    | .nodeSet s =>
      return ((s.sorted setting.view).nodes, (predicates.map (·.predicate)).reverse)
    | other => throw (.operandNotNodeSet "[]" other.kind)

/-- The nodes that a path selects; if one is enough, at most the first. -/
def select (setting : Setting) (once : Bool) (start : Start Meaning) (steps : List (Step Meaning))
    (context : Context) : Eval (List Node) := do
  let (nodes, predicates) ← startNodes setting context start
  selectFrom setting once nodes predicates [] steps

def evaluate (setting : Setting) (start : Start Meaning) (steps : List (Step Meaning))
    (context : Context) : Eval Value := do
  return .nodeSet ⟨← select setting false start steps context⟩

/-- Whether a path selects anything. -/
def exists? (setting : Setting) (start : Start Meaning) (steps : List (Step Meaning))
    (context : Context) : Eval Bool := do
  return !(← select setting true start steps context).isEmpty

def meaning (setting : Setting) (start : Start Meaning) (steps : List (Step Meaning)) : Meaning :=
  .ofTruth (evaluate setting start steps) (exists? setting start steps)

end Path

end XPath
