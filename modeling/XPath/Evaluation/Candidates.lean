/-
Candidates and predicates.

The predicates of a step are stages in a row: each takes the candidates that the one before it
has kept, and none of them works before it is asked for a candidate.  A predicate is evaluated
with the position of the candidate in the list it takes from, and with the length of that list
as the size; to count it, the stages before have to finish their work.

A number literal picks the candidate at its position and does not look at the others.  Any other
predicate is evaluated for one candidate after the other: a number keeps the candidate at that
position and ends the list, all other values keep a candidate if they are true.

* `Verdict`, `Predicate` — what a predicate says about a candidate;
* `Predicate.pull` — a stage takes one more candidate;
* `Candidates.read` — the kept candidates, found as far as needed;
* `Candidates.each` — visits the kept candidates in order.
-/
import XPath.Evaluation.Basic

namespace XPath

/-- What a predicate says about a candidate. -/
inductive Verdict where
  /-- It is kept, and no other. -/
  | picked
  | kept
  | dropped
  deriving DecidableEq, Repr

namespace Verdict

/-- A truth value keeps or drops. -/
def ofBool (b : Bool) : Verdict := if b then kept else dropped

/-- A number picks the candidate at its position, any other value keeps or drops by its truth. -/
def ofValue (position : Nat) : Value → Verdict
  | .number x => if x == Number.ofNat position then picked else dropped
  | value => ofBool value.toBool

end Verdict

inductive Predicate where
  | position (x : Float)
  | test (judge : Context → Eval Verdict)

namespace Stage

/-- Whether a number can be a position. -/
def isPosition (x : Float) : Bool := Number.isInteger x && 1 ≤ x

/-- The stage of a predicate before it has taken a candidate.  A number that is no position keeps
none and need not take any. -/
def initial : Predicate → Stage
  | .position x => ⟨if isPosition x then .fresh else .ofNodes [], 0, 0, false⟩
  | .test _ => ⟨.fresh, 0, 0, false⟩

/-- A stage that is not there. -/
def away : Stage := ⟨.away, 0, 0, false⟩

def nearest (s : State) : Stage := s.stages.headD away

def modifyNearest (f : Stage → Stage) (s : State) : State :=
  match s.stages with
  | [] => s
  | stage :: rest => { s with stages := f stage :: rest }

/-- Where the nearest stage remembers what it has kept. -/
def place : Place State where
  get s := (nearest s).kept
  set s q := modifyNearest (fun stage => { stage with kept := q }) s

/-- Runs an action that sees only the stages before the nearest one. -/
def before {α : Type} (action : Eval α) : Eval α := fun s =>
  let put := fun (t : State) => { t with stages := s.stages.take 1 ++ t.stages }
  match action { s with stages := s.stages.tail } with
  | .ok a t => .ok a (put t)
  | .error e t => .error e (put t)

/-- Runs an action on other stages, and gives what has become of them. -/
def within {α : Type} (stages : List Stage) (action : Eval α) : Eval (α × List Stage) := fun s =>
  match action { s with stages := stages } with
  | .ok a t => .ok (a, t.stages) { t with stages := s.stages }
  | .error e t => .error e { t with stages := s.stages }

end Stage

namespace Predicate

/-- Takes the candidate at a position, the only time it is asked. -/
def pullPosition (read : Option Nat → Eval (List Node)) (x : Float) : Eval Pull := do
  if (Stage.nearest (← get)).closed then return .finished
  -- It is closed before it reads, so that a failure leaves it with nothing to give.
  modify (Stage.modifyNearest fun stage => { stage with closed := true })
  let index := Number.wholePart x - 1
  let candidates ← Stage.before (read (some index))
  match candidates[index]? with
  | some n => return .node n
  | none => return .finished

/-- Takes the next candidate and judges it. -/
def pullNext (read : Option Nat → Eval (List Node)) (judge : Context → Eval Verdict) :
    Eval Pull := do
  let stage := Stage.nearest (← get)
  let candidates ←
    try Stage.before (read (some stage.taken))
    catch e =>
      -- The position counts tries, so a failed one moves all later candidates on.
      modify (Stage.modifyNearest fun stage => { stage with tried := stage.tried + 1 })
      if stage.closed then return .finished else throw e
  match candidates[stage.taken]? with
  | none => return .finished
  | some n =>
    modify <| Stage.modifyNearest fun stage =>
      { stage with taken := stage.taken + 1, tried := stage.tried + 1 }
    -- A stage that has picked its candidate takes one more before it says that it is done.
    if stage.closed then return .finished
    let size := do return (← read none).length
    match ← Stage.before (judge ⟨n, stage.tried + 1, size⟩) with
    | .picked =>
      modify (Stage.modifyNearest fun stage => { stage with closed := true })
      return .node n
    | .kept => return .node n
    | .dropped => return .nothing

/-- Takes one more candidate from the list that `read` reads. -/
def pull (read : Option Nat → Eval (List Node)) : Predicate → Eval Pull
  | .position x => pullPosition read x
  | .test judge => pullNext read judge

end Predicate

namespace Candidates

/-- Reads the candidates that all predicates keep, up to an index or all of them.  The predicates
are given last to first, as are their stages in the state. -/
def read (nodes : List Node) : List Predicate → Option Nat → Eval (List Node)
  | [], _ => pure nodes
  | p :: earlier, stop => do
    Stage.place.fill (p.pull (read nodes earlier)) stop (nodes.length + 1)
    return (Stage.nearest (← get)).kept.found

/-- Visits the kept candidates from index `i` on, until there is enough. -/
def eachFrom {β : Type} (nodes : List Node) (predicates : List Predicate) (enough : β → Bool)
    (visit : Node → β → Eval β) : Nat → Nat → List Stage → β → Eval β
  | 0, _, _, b => pure b
  | fuel + 1, i, stages, b => do
    if enough b then return b
    let (kept, stages) ← Stage.within stages (read nodes predicates (some i))
    match kept[i]? with
    | none => return b
    | some n =>
      let b ← visit n b
      eachFrom nodes predicates enough visit fuel (i + 1) stages b

/-- Visits the kept candidates in order, until there is enough.  The predicates are given last to
first. -/
def each {β : Type} (nodes : List Node) (predicates : List Predicate) (enough : β → Bool)
    (visit : Node → β → Eval β) (b : β) : Eval β :=
  eachFrom nodes predicates enough visit (nodes.length + 1) 0 (predicates.map Stage.initial) b

end Candidates

end XPath
