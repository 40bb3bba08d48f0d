/-
Nodes and what can be asked about them.

The engine knows documents only through a few links between nodes: parent, first child and
siblings, with the attributes and namespace nodes of an element as lists.  `Links` is any such
set of links, `View` adds the two questions that a source of documents may answer faster than
by following links: which child is the last, and which of two nodes comes first.

A chain of links ends after at most `bound` nodes; walks use this as their fuel.

* `Links`, `View` — the questions;
* `Links.chain` — the nodes met by following one link again and again;
* `Links.children`, `Links.ancestors`, `Links.document` — built from chains;
* `Links.compareByAncestry` — document order found by following links;
* `Links.toView` — both questions answered by following links.
-/
import XPath.Tree.Basic

namespace XPath

/-- A node: which tree it is in and its number there. -/
structure Node where
  tree : Nat
  id : Nat
  deriving DecidableEq, Repr

structure Links where
  /-- More nodes than any chain of links can have. -/
  bound : Nat
  kind : Node → NodeKind
  name? : Node → Option NodeName
  stringValue : Node → String
  /-- The parent; of an attribute or a namespace node, the element it belongs to. -/
  parent? : Node → Option Node
  firstChild? : Node → Option Node
  nextSibling? : Node → Option Node
  previousSibling? : Node → Option Node
  attributes : Node → List Node
  namespaces : Node → List Node

namespace Links

/-- The nodes met by following `link` from a node on, that node first. -/
def chainFrom (link : Node → Option Node) : Nat → Option Node → List Node
  | 0, _ => []
  | _, none => []
  | fuel + 1, some n => n :: chainFrom link fuel (link n)

variable (l : Links)

/-- The nodes met by following `link` from `start` on. -/
def chain (link : Node → Option Node) (start : Option Node) : List Node :=
  chainFrom link l.bound start

/-- The children of a node, first to last. -/
def children (n : Node) : List Node := l.chain l.nextSibling? (l.firstChild? n)

/-- The last child of a node, found by walking through all of them. -/
def lastChildByWalking (n : Node) : Option Node := (l.children n).getLast?

/-- The ancestors of a node, nearest first. -/
def ancestors (n : Node) : List Node := l.chain l.parent? (l.parent? n)

/-- The topmost ancestor of a node, or itself. -/
def document (n : Node) : Node := (l.ancestors n).getLastD n

/-- Whether a node is a document node. -/
def isDocument (n : Node) : Bool := l.kind n == .root

def isElement (n : Node) : Bool := l.kind n == .element

def isAttribute (n : Node) : Bool := l.kind n == .attribute

/-- Whether a node is a namespace node. -/
def isNamespace (n : Node) : Bool := l.kind n == .namespaceNode

/-- Whether a node is a CDATA section. -/
def isCData (n : Node) : Bool := l.kind n == .cdata

/-- Whether a node is text; a CDATA section is. -/
def isText (n : Node) : Bool := l.kind n == .text || l.isCData n

def isComment (n : Node) : Bool := l.kind n == .comment

/-- Whether a node is a processing instruction. -/
def isInstruction (n : Node) : Bool := l.kind n == .instruction

/-- Whether a node belongs to its parent without being a child of it. -/
def isAttached (n : Node) : Bool := l.isAttribute n || l.isNamespace n

/-! ### Document order by ancestry -/

/-- Below a common parent namespace nodes come first, then attributes, then children. -/
def rank (n : Node) : Nat :=
  match l.kind n with
  | .namespaceNode => 0
  | .attribute => 1
  | _ => 2

/-- The place of a node in a list, counted from one; zero if it is not there. -/
def place (nodes : List Node) (n : Node) : Nat :=
  match nodes.idxOf? n with
  | some i => i + 1
  | none => 0

/-- Compares two different nodes with one parent: by rank, then by their place in the parent's
list, for children by whether the second follows the first. -/
def compareBelow (parent a b : Node) : Ordering :=
  match compare (l.rank a) (l.rank b) with
  | .lt => .lt
  | .gt => .gt
  | .eq =>
    -- Both have the same rank from here on.
    match l.rank a with
    | 0 => compare (place (l.namespaces parent) a) (place (l.namespaces parent) b)
    | 1 => compare (place (l.attributes parent) a) (place (l.attributes parent) b)
    | _ => if b ∈ l.chain l.nextSibling? (l.nextSibling? a) then .lt else .gt

/-- Compares the ends of two paths from the top, below the last node they share.  Paths that
share none belong to different trees, and neither end comes first. -/
def comparePaths : Option Node → List Node → List Node → Ordering
  | none, [], _ => .eq
  | none, _, [] => .eq
  | some _, [], [] => .eq
  | some _, [], _ :: _ => .lt
  | some _, _ :: _, [] => .gt
  | shared, a :: as, b :: bs =>
    if a = b then comparePaths (some a) as bs
    else match shared with
      | none => .eq
      | some parent => l.compareBelow parent a b

/-- The nodes from the top down to a node. -/
def path (n : Node) : List Node := (n :: l.ancestors n).reverse

/-- Document order from ancestry: an ancestor comes first, nodes apart from each other compare as
their ancestors below the last one they share, and nodes of different trees are not ordered. -/
def compareByAncestry (a b : Node) : Ordering :=
  if a = b then .eq else l.comparePaths none (l.path a) (l.path b)

end Links

/-- Links, with the last child and document order. -/
structure View extends Links where
  lastChild? : Node → Option Node
  order : Node → Node → Ordering

/-- The view that answers everything by following links. -/
def Links.toView (l : Links) : View :=
  { l with
    lastChild? := l.lastChildByWalking
    order := l.compareByAncestry }

end XPath
