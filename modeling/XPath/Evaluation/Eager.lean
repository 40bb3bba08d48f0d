/-
Location paths by whole lists.

This is the plain reading of a location path, without regard to the work it takes: a step turns
a list of nodes into the list of all nodes that it leads to from any of them, and a predicate is
evaluated on a list that is known from the start.  Nothing is left out because an answer is
known already, except that a predicate looks no further once it has picked a candidate.

* `Eager.keep` — the candidates that a predicate keeps;
* `Eager.step`, `Eager.select` — the nodes that a step and a path lead to;
* `Interpretation.eager` — expressions whose paths are read in this way, and whose truth is that
  of their value.
-/
import XPath.Evaluation.Meaning

namespace XPath

namespace Eager

/-- What a predicate says about the node of a context.  A number literal picks the candidate at
the position that it is equal to. -/
def verdict : Predicate → Context → Eval Verdict
  | .position x, c =>
    pure (if Stage.isPosition x && Number.wholePart x == c.position then .picked else .dropped)
  | .test judge, c => judge c

/-- The candidates that a predicate keeps, of the last ones of a list of `size`, the first of
which is at `position`. -/
def keepFrom (p : Predicate) (size : Nat) : Nat → List Node → Eval (List Node)
  | _, [] => pure []
  | position, n :: rest => do
    match ← verdict p ⟨n, position, pure size⟩ with
    -- What comes after a picked candidate is not evaluated, as its errors would come to light.
    | .picked => return [n]
    | .kept => return n :: (← keepFrom p size (position + 1) rest)
    | .dropped => keepFrom p size (position + 1) rest

/-- The candidates of a list that a predicate keeps. -/
def keep (p : Predicate) (candidates : List Node) : Eval (List Node) :=
  keepFrom p candidates.length 1 candidates

/-- The candidates that are left when each predicate has been applied to what the one before it
has left. -/
def survivors : List Predicate → List Node → Eval (List Node)
  | [], candidates => pure candidates
  | p :: rest, candidates => do survivors rest (← keep p candidates)

/-- The nodes that a step leads to from each of several nodes, one list for each. -/
def reached (stride : Stride) : List Node → Eval (List (List Node))
  | [] => pure []
  | n :: rest => do
    let found ← survivors stride.predicates.reverse (stride.candidates n)
    return found :: (← reached stride rest)

/-- The nodes that a step leads to from any of several nodes. -/
def step (setting : Setting) (s : Step Meaning) (nodes : List Node) : Eval (List Node) := do
  let stride ← Eval.ofExcept (Stride.ofStep setting s)
  let found := firstOccurrences (← reached stride nodes).flatten
  return if s.axis.restoresOrder then setting.view.sort found else found

/-- The nodes that steps lead to one after the other. -/
def follow (setting : Setting) : List (Step Meaning) → List Node → Eval (List Node)
  | [], nodes => pure nodes
  | s :: rest, nodes => do follow setting rest (← step setting s nodes)

/-- The nodes that a path selects. -/
def select (setting : Setting) (start : Start Meaning) (steps : List (Step Meaning))
    (context : Context) : Eval (List Node) := do
  let (nodes, predicates) ← Path.startNodes setting context start
  follow setting steps (← survivors predicates.reverse nodes)

def meaning (setting : Setting) (start : Start Meaning) (steps : List (Step Meaning)) : Meaning :=
  .ofValue fun c => do return .nodeSet ⟨← select setting start steps c⟩

end Eager

/-- The interpretation in which paths are read by whole lists. -/
def Interpretation.eager (library : Library) (setting : Setting) : Interpretation :=
  { standard library setting with path := Eager.meaning setting }

end XPath
