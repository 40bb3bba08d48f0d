/-
Lists of nodes that are found on demand.

A `Sequence` remembers the nodes that its source has yielded so far, so that any number of
readers share one production.  It asks its source only for what a read cannot answer from
memory.  While the source is at work it cannot be asked again: a read that comes in meanwhile
is answered from memory or refused.  A source that fails may be asked again later; once it
has come to its end it never is.

Where a sequence is kept and how its source works is up to the user: a `Place` says where it is
in some larger state, and the source is an action on that state.

* `Sequence` — what is remembered;
* `Pull` — what asking the source once leads to;
* `Place.fill` — asks the source until a read can be answered.
-/
import XPath.Error
import XPath.Tree.View

namespace XPath

/-- What is known of a list of nodes. -/
structure Sequence where
  /-- The nodes found so far, in order. -/
  found : List Node
  /-- There are no more. -/
  exhausted : Bool
  /-- The source is at work. -/
  busy : Bool
  deriving DecidableEq, Repr

namespace Sequence

/-- A sequence that has not asked its source yet. -/
def fresh : Sequence := ⟨[], false, false⟩

/-- A sequence of nodes that are all known. -/
def ofNodes (nodes : List Node) : Sequence := ⟨nodes, true, false⟩

/-- A sequence that is not there to be asked. -/
def away : Sequence := ⟨[], false, true⟩

/-- Whether memory answers a read up to an index, or of everything. -/
def answers (s : Sequence) : Option Nat → Bool
  | some i => s.exhausted || i < s.found.length
  | none => s.exhausted

/-- The source is at work from now on. -/
def occupied (s : Sequence) : Sequence := { s with busy := true }

/-- The source is no longer at work. -/
def released (s : Sequence) : Sequence := { s with busy := false }

/-- The source has yielded a node. -/
def extended (s : Sequence) (n : Node) : Sequence := ⟨s.found ++ [n], s.exhausted, false⟩

/-- The source has come to its end. -/
def ended (s : Sequence) : Sequence := ⟨s.found, true, false⟩

/-- A read came in while the source was at work. -/
def outOfTurn : Error := .internal "node sequence read while it is being produced"

end Sequence

/-- What asking a source once leads to. -/
inductive Pull where
  | node (n : Node)
  /-- Nothing yet; there may be more. -/
  | nothing
  /-- There are no more nodes. -/
  | finished
  deriving DecidableEq, Repr

/-- Where a sequence is kept in a larger state. -/
structure Place (σ : Type) where
  get : σ → Sequence
  set : σ → Sequence → σ

/-- Asks the source until memory answers a read up to `stop`, at most `fuel` times.  A failure of
the source is passed on and leaves what was found before. -/
def Place.fill {σ : Type} (place : Place σ) (pull : EStateM Error σ Pull) (stop : Option Nat) :
    Nat → EStateM Error σ Unit
  | 0 => pure ()
  | fuel + 1 => fun s =>
    let q := place.get s
    if q.answers stop then .ok () s
    else if q.busy then .error Sequence.outOfTurn s
    else
      match pull (place.set s q.occupied) with
      | .ok (.node n) s => place.fill pull stop fuel (place.set s ((place.get s).extended n))
      | .ok .nothing s => place.fill pull stop fuel (place.set s (place.get s).released)
      | .ok .finished s => .ok () (place.set s (place.get s).ended)
      | .error e s => .error e (place.set s (place.get s).released)

end XPath
