/-
Cursors.

The walks that lead further than to the neighbours of a node keep a cursor: where they are, and
what they do not leave.  They have nothing but links to go by.  A step of a cursor comes by a node,
goes on without one, or is the end of the walk.

* `Cursor.collect` — the nodes that a cursor comes by;
* `Cursor.Descendants` — down through a subtree, in document order;
* `Cursor.Following` — through the subtrees after a node;
* `Cursor.Preceding` — through the subtrees before a node, each from its last node to its top;
* `Cursor.Unvisited` — a cursor that passes over the nodes that it has come by already.
-/
import XPath.Tree.View

namespace XPath

open Std (IterStep)

namespace Cursor

/-- The nodes that a cursor comes by in at most `fuel` steps. -/
def collect {σ : Type} (step : σ → IterStep σ Node) : Nat → σ → List Node
  | 0, _ => []
  | fuel + 1, cursor =>
    match step cursor with
    | .yield cursor n => n :: collect step fuel cursor
    | .skip cursor => collect step fuel cursor
    | .done => []

/-- A cursor with the nodes that it has come by. -/
structure Unvisited (σ : Type) where
  cursor : σ
  visited : List Node

/-- A step that passes over nodes come by already. -/
def Unvisited.step {σ : Type} (step : σ → IterStep σ Node) (c : Unvisited σ) :
    IterStep (Unvisited σ) Node :=
  match step c.cursor with
  | .yield cursor n =>
    if n ∈ c.visited then .skip { c with cursor } else .yield ⟨cursor, n :: c.visited⟩ n
  | .skip cursor => .skip { c with cursor }
  | .done => .done

end Cursor

/-! ### Down through a subtree -/

namespace View

variable (v : View)

/-- Where a walk through the subtree of `top` goes on after all that is below a node: at the next
sibling of the node, or of the nearest node above it that has one. -/
def climb (top : Node) : Nat → Node → Option Node
  | 0, _ => none
  | fuel + 1, n =>
    if n = top then none
    else match v.nextSibling? n with
      | some sibling => some sibling
      | none =>
        match v.parent? n with
        -- The siblings of the top are not in its subtree.
        | some parent => if parent = top then none else climb top fuel parent
        | none => none

/-- The node after `n` in the subtree of `top`. -/
def successor (top n : Node) : Option Node :=
  match v.firstChild? n with
  | some child => some child
  | none => v.climb top v.bound n

end View

/-- A walk through a subtree: its top, and the node that it comes by next. -/
structure Cursor.Descendants where
  top : Node
  next? : Option Node

namespace Cursor.Descendants

variable (v : View)

/-- A walk through the subtree of `top`, with or without `top`. -/
def within (top : Node) (withTop : Bool) : Descendants :=
  ⟨top, if withTop then some top else v.firstChild? top⟩

def step (c : Descendants) : IterStep Descendants Node :=
  match c.next? with
  | some n => .yield { c with next? := v.successor c.top n } n
  | none => .done

theorem step_some (top n : Node) :
    step v ⟨top, some n⟩ = .yield ⟨top, v.successor top n⟩ n := rfl

end Cursor.Descendants

/-! ### Along the document -/

namespace View

variable (v : View)

/-- Whether a walk in the direction of the document ends at this node. -/
def isEdge (root n : Node) : Bool := n = root || v.isDocument n

/-- Where the walks along the document start: at the node, or at the element that an attribute
or a namespace node belongs to. -/
def anchor? (n : Node) : Option Node := if v.isAttached n then v.parent? n else some n

/-- The sibling that `link` leads to from a node, or from the nearest node above it that has one,
before the edge. -/
def advance (link : Node → Option Node) (root : Node) : Nat → Node → Option Node
  | 0, _ => none
  | fuel + 1, n =>
    if v.isEdge root n then none
    else match link n with
      | some sibling => some sibling
      | none =>
        match v.parent? n with
        | some parent => advance link root fuel parent
        | none => none

/-- The deepest of the last descendants of a node: the last node of its subtree. -/
def deepestLast : Nat → Node → Node
  | 0, n => n
  | fuel + 1, n =>
    match v.lastChild? n with
    | some child => deepestLast fuel child
    | none => n

end View

/-- A walk through the subtrees after a node: the top of the subtree that it has reached, and how
far it has come in it. -/
structure Cursor.Following where
  root : Node
  anchor? : Option Node
  subtree? : Option Cursor.Descendants

namespace Cursor.Following

variable (v : View)

/-- From an attribute or a namespace node the walk starts with what is below the owner, since it
passes over the owner's subtree afterwards. -/
def start (n root : Node) : Following :=
  let anchor? := v.anchor? n
  ⟨root, anchor?, if v.isAttached n then anchor?.map (Descendants.within v · false) else none⟩

/-- On to the next subtree. -/
def turn (c : Following) : IterStep Following Node :=
  match c.anchor?.bind (v.advance v.nextSibling? c.root v.bound) with
  | some top => .skip { c with anchor? := some top, subtree? := some (.within v top true) }
  | none => .done

def step (c : Following) : IterStep Following Node :=
  match c.subtree? with
  | none => c.turn v
  | some subtree =>
    match subtree.step v with
    | .yield subtree n => .yield { c with subtree? := some subtree } n
    | .skip subtree => .skip { c with subtree? := some subtree }
    | .done => c.turn v

end Cursor.Following

/-- A walk backwards through the subtrees before a node: the top of the subtree that it has
reached, which is where it goes on from, and the node that it comes by next. -/
structure Cursor.Preceding where
  root : Node
  anchor? : Option Node
  top? : Option Node
  pending? : Option Node

namespace Cursor.Preceding

variable (v : View)

def start (n root : Node) : Preceding := ⟨root, v.anchor? n, none, none⟩

/-- The node before `n` in the subtree of `top?`: the last one below its previous sibling, or its
parent. -/
def predecessor (top? : Option Node) (n : Node) : Option Node :=
  if some n = top? then none
  else match v.previousSibling? n with
    | some sibling => some (v.deepestLast v.bound sibling)
    | none => v.parent? n

/-- Comes by a node. -/
def visit (c : Preceding) (n : Node) : IterStep Preceding Node :=
  .yield { c with pending? := predecessor v c.top? n } n

def step (c : Preceding) : IterStep Preceding Node :=
  match c.pending? with
  | some n => c.visit v n
  | none =>
    match c.anchor?.bind (v.advance v.previousSibling? c.root v.bound) with
    | some top =>
      { c with anchor? := some top, top? := some top }.visit v (v.deepestLast v.bound top)
    | none => .done

end Cursor.Preceding

end XPath
