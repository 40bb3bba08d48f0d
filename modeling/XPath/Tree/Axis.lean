/-
The thirteen axes.

An axis leads from a node to a list of nodes, forward axes in document order, reverse axes
nearest first.  The axes `following` and `preceding` stay inside the part of the document below
a given root.

* `Axis` — the axes, their names and properties;
* `View.walk` — the nodes on an axis.
-/
import XPath.Tree.Cursor

namespace XPath

inductive Axis where
  | ancestor
  | ancestorOrSelf
  | attribute
  | child
  | descendant
  | descendantOrSelf
  | following
  | followingSibling
  | namespaceAxis
  | parent
  | preceding
  | precedingSibling
  | self
  deriving DecidableEq, Repr

namespace Axis

/-- Every axis, by name. -/
def all : List Axis :=
  [.ancestor, .ancestorOrSelf, .attribute, .child, .descendant, .descendantOrSelf, .following,
   .followingSibling, .namespaceAxis, .parent, .preceding, .precedingSibling, .self]

def name : Axis → String
  | .ancestor => "ancestor"
  | .ancestorOrSelf => "ancestor-or-self"
  | .attribute => "attribute"
  | .child => "child"
  | .descendant => "descendant"
  | .descendantOrSelf => "descendant-or-self"
  | .following => "following"
  | .followingSibling => "following-sibling"
  | .namespaceAxis => "namespace"
  | .parent => "parent"
  | .preceding => "preceding"
  | .precedingSibling => "preceding-sibling"
  | .self => "self"

/-- The axis with a name; `@` is short for `attribute`. -/
def ofText? (s : String) : Option Axis :=
  if s = "@" then some .attribute else all.find? fun axis => axis.name = s

/-- An axis is found by its name. -/
theorem ofText?_name (axis : Axis) : ofText? axis.name = some axis := by
  cases axis <;> decide

/-- Whether an axis counts its nodes backwards from the node it starts at. -/
def isReverse : Axis → Bool
  | .ancestor | .ancestorOrSelf | .preceding | .precedingSibling => true
  | _ => false

/-- The kind of node that names and `*` select on an axis. -/
def principalKind : Axis → NodeKind
  | .attribute => .attribute
  | .namespaceAxis => .namespaceNode
  | _ => .element

/-- Whether the result of a step on this axis is put back into document order. The ancestor axes
keep their nearest node first. -/
def restoresOrder : Axis → Bool
  | .preceding | .precedingSibling => true
  | _ => false

end Axis

namespace View

variable (v : View)

/-- The descendants of a node in document order. -/
def descendants (n : Node) : List Node :=
  Cursor.collect (Cursor.Descendants.step v) v.bound (.within v n false)

/-- A node and its descendants in document order. -/
def descendantsOrSelf (n : Node) : List Node :=
  Cursor.collect (Cursor.Descendants.step v) v.bound (.within v n true)

/-- The siblings met by following `link`; attributes and namespace nodes have none. -/
def siblings (link : Node → Option Node) (n : Node) : List Node :=
  if v.isAttached n then [] else v.chain link (link n)

/-- All that comes after a node, without its descendants.  What is below an element comes after
its attributes and namespace nodes. -/
def following (n root : Node) : List Node :=
  -- The walk takes a step for each node and one for each subtree.
  Cursor.collect (Cursor.Unvisited.step (Cursor.Following.step v)) (2 * v.bound)
    ⟨.start v n root, []⟩

/-- All that comes before a node, without its ancestors, nearest first. -/
def preceding (n root : Node) : List Node :=
  Cursor.collect (Cursor.Unvisited.step (Cursor.Preceding.step v)) v.bound ⟨.start v n root, []⟩

/-- The nodes on an axis.  The root bounds `following` and `preceding`. -/
def walk (axis : Axis) (n root : Node) : List Node :=
  match axis with
  | .self => [n]
  | .child => v.children n
  | .parent => (v.parent? n).toList
  | .attribute => v.attributes n
  | .namespaceAxis => v.namespaces n
  | .descendant => v.descendants n
  | .descendantOrSelf => v.descendantsOrSelf n
  | .ancestor => v.ancestors n
  | .ancestorOrSelf => n :: v.ancestors n
  | .followingSibling => v.siblings v.nextSibling? n
  | .precedingSibling => v.siblings v.previousSibling? n
  | .following => v.following n root
  | .preceding => v.preceding n root

end View

end XPath
