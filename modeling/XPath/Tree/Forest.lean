/-
Views of trees.

A forest is a list of trees; a node names one of them and a node in it.  The same forest can be
seen in four ways, which differ in the questions they answer directly:
* `indexed` — knows the place of every node in document order;
* `structural` — finds document order by following links;
* `withoutNamespaces` — as `structural`, and has no namespace nodes;
* `linked` — as `structural`, and links neighbouring attributes and namespace nodes of an
  element as siblings.
-/
import XPath.Tree.View

namespace XPath

/-- What is looked up often about one node of a tree. -/
structure Row where
  children : List Nat
  attributes : List Nat
  namespaces : List Nat
  nextPeer : Option Nat
  previousPeer : Option Nat
  position : Nat

/-- What is looked up often about node `i`. -/
def Row.of (t : Tree) (places : Array Nat) (i : Nat) : Row where
  children := t.children i
  attributes := t.attributes i
  namespaces := t.namespaces i
  nextPeer := t.nextPeer i
  previousPeer := t.previousPeer i
  position := places[i]?.getD 0

/-- A tree with the rows of all its nodes. -/
structure Layout where
  tree : Tree
  places : Array Nat
  rows : Array Row

namespace Layout

/-- Works out the rows of a tree. -/
def of (t : Tree) : Layout :=
  let places := t.places
  ⟨t, places, (Array.range t.size).map (Row.of t places)⟩

/-- The row of node `i`. -/
def row (l : Layout) (i : Nat) : Row := l.rows[i]?.getD (Row.of l.tree l.places i)

/-- A stored row is the row worked out anew. -/
theorem row_of (t : Tree) (i : Nat) : (of t).row i = Row.of t t.places i := by
  unfold row of
  by_cases h : i < t.size <;> simp [h]

end Layout

/-- Trees, whose places in the list their nodes refer to. -/
abbrev Forest := List Tree

namespace Forest

/-- The layouts of the trees. -/
def layouts (f : Forest) : Array Layout := (f.map Layout.of).toArray

/-- The layout of the tree that a node is in. -/
def layoutOf (layouts : Array Layout) (n : Node) : Layout :=
  layouts[n.tree]?.getD (Layout.of Tree.empty)

/-- The node with number `i` in the tree of `n`. -/
def beside (n : Node) (i : Nat) : Node := ⟨n.tree, i⟩

/-- The links of nodes with worked out layouts.  Only what is a child has siblings. -/
def linksOf (layouts : Array Layout) : Links :=
  let row := fun (n : Node) => (layoutOf layouts n).row n.id
  let isChild := fun (n : Node) => ((layoutOf layouts n).tree.kind n.id).isChild
  { bound := layouts.foldl (fun total l => total + l.tree.size) 1
    kind := fun n => (layoutOf layouts n).tree.kind n.id
    name? := fun n => (layoutOf layouts n).tree.name? n.id
    stringValue := fun n => (layoutOf layouts n).tree.stringValue n.id
    parent? := fun n => ((layoutOf layouts n).tree.parent? n.id).map (beside n)
    firstChild? := fun n => (row n).children.head?.map (beside n)
    nextSibling? := fun n => if isChild n then (row n).nextPeer.map (beside n) else none
    previousSibling? := fun n => if isChild n then (row n).previousPeer.map (beside n) else none
    attributes := fun n => (row n).attributes.map (beside n)
    namespaces := fun n => (row n).namespaces.map (beside n) }

/-- The links of the nodes of a forest. -/
def links (f : Forest) : Links := linksOf f.layouts

/-- The view that knows the place of every node in its tree.  To compare two nodes, both are looked
up by their numbers in the tree of the first one, also if the second one is from another tree.  A
number that the tree does not have counts as that of the document, where an access out of bounds
would stop the program. -/
def indexed (f : Forest) : View :=
  let layouts := f.layouts
  { linksOf layouts with
    lastChild? := fun n => ((layoutOf layouts n).row n.id).children.getLast?.map (beside n)
    order := fun a b =>
      let layout := layoutOf layouts a
      compare (layout.row a.id).position (layout.row b.id).position }

/-- The view that follows links. -/
def structural (f : Forest) : View := f.links.toView

/-- The view that follows links and has no namespace nodes. -/
def withoutNamespaces (f : Forest) : View :=
  Links.toView { f.links with namespaces := fun _ => [] }

/-- The view that follows links, by which attributes and namespace nodes have siblings. -/
def linked (f : Forest) : View :=
  let layouts := f.layouts
  Links.toView
    { linksOf layouts with
      nextSibling? := fun n => ((layoutOf layouts n).row n.id).nextPeer.map (beside n)
      previousSibling? := fun n => ((layoutOf layouts n).row n.id).previousPeer.map (beside n) }

end Forest

end XPath
