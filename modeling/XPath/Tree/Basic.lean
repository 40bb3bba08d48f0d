/-
Document trees.

A tree is a document node and a list of further nodes, each with the node it belongs to, which
was there before it.  Nodes are numbered: the document is 0, the others follow in the order in
which they were added.  What a node owns is read off the owners of the others, so there is
nothing to keep consistent: its children are the nodes it owns that are neither attributes nor
namespace nodes, in the order in which they were added.

Any node may own nodes of any kind.  Document order is: a node, its namespace nodes, its
attributes, then its children with all that is below them.

Main definitions:
* `Content`, `Entry`, `Tree` — the data;
* `Tree.children`, `Tree.attributes`, `Tree.namespaces`, `Tree.nextPeer`, … — navigation;
* `Tree.stringValue` — the text of a node;
* `Tree.Numbering`, `Tree.position` — document order.
-/
import XPath.Name

namespace XPath

inductive NodeKind where
  | root
  | element
  | attribute
  | namespaceNode
  | text
  | cdata
  | comment
  | instruction
  deriving DecidableEq, Repr

/-- Whether a node of this kind is a child of its owner, rather than an attribute or a namespace
node of it. -/
def NodeKind.isChild : NodeKind → Bool
  | .attribute | .namespaceNode => false
  | _ => true

/-- What a node other than the document holds. -/
inductive Content where
  | element (name : NodeName)
  | attribute (name : NodeName) (value : String)
  /-- Declares a qualifier; the empty one stands for the default namespace. -/
  | namespaceNode (declared uri : String)
  | text (value : String)
  | cdata (value : String)
  | comment (value : String)
  | instruction (target : NodeName) (value : String)
  deriving DecidableEq, Repr

namespace Content

/-- The kind of a node with this content. -/
def kind : Content → NodeKind
  | .element _ => .element
  | .attribute _ _ => .attribute
  | .namespaceNode _ _ => .namespaceNode
  | .text _ => .text
  | .cdata _ => .cdata
  | .comment _ => .comment
  | .instruction _ _ => .instruction

/-- The name of a node with this content. -/
def name? : Content → Option NodeName
  | .element name | .attribute name _ | .instruction name _ => some name
  | .namespaceNode declared _ => some ⟨none, declared, none⟩
  | .text _ | .cdata _ | .comment _ => none

/-- The text that a node with this content holds itself. -/
def value : Content → String
  | .element _ => ""
  | .attribute _ value | .instruction _ value => value
  | .namespaceNode _ uri => uri
  | .text value | .cdata value | .comment value => value

end Content

/-- A node other than the document, with the number of the node it belongs to. -/
structure Entry where
  owner : Nat
  content : Content
  deriving DecidableEq, Repr

/-- A document tree. Node `i + 1` is entry `i`, and its owner has a smaller number. -/
structure Tree where
  entries : Array Entry
  owner_le : ∀ i (h : i < entries.size), entries[i].owner ≤ i

namespace Tree

/-- The tree that is only a document node. -/
def empty : Tree := ⟨#[], by simp⟩

/-- How many nodes a tree has. -/
def size (t : Tree) : Nat := t.entries.size + 1

/-- Adds a node, unless its owner does not exist. -/
def add? (t : Tree) (owner : Nat) (content : Content) : Option Tree :=
  if h : owner ≤ t.entries.size then
    some {
      entries := t.entries.push ⟨owner, content⟩
      owner_le := by
        intro i hi
        rw [Array.getElem_push]
        split
        · exact t.owner_le i _
        · simp at hi; dsimp only; omega }
  else none

/-- The tree built by adding nodes one after the other. -/
def ofEntries? (entries : List Entry) : Option Tree :=
  entries.foldlM (fun t e => t.add? e.owner e.content) empty

/-- What node `i` holds; the document holds nothing. -/
def content? (t : Tree) : Nat → Option Content
  | 0 => none
  | i + 1 => t.entries[i]?.map (·.content)

def kind (t : Tree) (i : Nat) : NodeKind :=
  match t.content? i with
  | some content => content.kind
  | none => .root

/-- The name of node `i`. -/
def name? (t : Tree) (i : Nat) : Option NodeName := (t.content? i).bind (·.name?)

/-- The node that owns node `i`. -/
def parent? (t : Tree) : Nat → Option Nat
  | 0 => none
  | i + 1 => t.entries[i]?.map (·.owner)

/-- A node is added after the node that owns it. -/
theorem parent?_lt {t : Tree} {i owner : Nat} (h : t.parent? i = some owner) : owner < i := by
  cases i with
  | zero => simp [parent?] at h
  | succ i =>
    obtain ⟨e, he, rfl⟩ := Option.map_eq_some_iff.1 h
    obtain ⟨hi, rfl⟩ := Array.getElem?_eq_some_iff.1 he
    have := t.owner_le i hi
    omega

/-- The nodes that node `i` owns and whose kind satisfies `p`, in the order they were added. -/
def owned (t : Tree) (p : NodeKind → Bool) (i : Nat) : List Nat :=
  (List.range t.size).filter fun j => t.parent? j = some i && p (t.kind j)

def children (t : Tree) (i : Nat) : List Nat := t.owned NodeKind.isChild i

def attributes (t : Tree) (i : Nat) : List Nat := t.owned (· == .attribute) i

def namespaces (t : Tree) (i : Nat) : List Nat := t.owned (· == .namespaceNode) i

/-- The nodes next to node `i` among the owned nodes that its owner lists it with. -/
def peers (t : Tree) (i : Nat) : List Nat :=
  match t.parent? i with
  | none => []
  | some owner =>
    match t.kind i with
    | .attribute => t.attributes owner
    | .namespaceNode => t.namespaces owner
    | _ => t.children owner

/-- The peer after node `i`. -/
def nextPeer (t : Tree) (i : Nat) : Option Nat := (t.peers i).find? (i < ·)

/-- The peer before node `i`. -/
def previousPeer (t : Tree) (i : Nat) : Option Nat := (t.peers i).reverse.find? (· < i)

/-- The text in and below node `i`: that of text and CDATA nodes, of which only the document and
elements hold more below them.  `fuel` bounds the depth. -/
def textBelow (t : Tree) : Nat → Nat → String
  | 0, _ => ""
  | fuel + 1, i =>
    match t.content? i with
    | some (.text value) | some (.cdata value) => value
    | none | some (.element _) => String.join ((t.children i).map (t.textBelow fuel))
    | _ => ""

/-- The string-value of node `i`: the text below it for the document and for elements, its own
text for all others. -/
def stringValue (t : Tree) (i : Nat) : String :=
  match t.content? i with
  | none | some (.element _) => t.textBelow t.size i
  | some content => content.value

/-! ### Document order -/

/-- What has its place in document order before the children of node `i`: the node, its namespace
nodes and its attributes. -/
def opening (t : Tree) (i : Nat) : List Nat := i :: (t.namespaces i ++ t.attributes i)

/-- Nodes being numbered: the places given so far, by node, the place that comes next, and the
nodes whose turn is still to come, the next one on top. -/
structure Numbering where
  places : Array Nat
  next : Nat
  stack : List Nat

namespace Numbering

/-- Gives the next place to node `i`. -/
def give (s : Numbering) (i : Nat) : Numbering :=
  { s with places := s.places.setIfInBounds i s.next, next := s.next + 1 }

/-- Gives places to the node on top with its namespace nodes and attributes.  Its children take its
place on the stack, the first one on top. -/
def step (t : Tree) (s : Numbering) : Option Numbering :=
  match s.stack with
  | [] => none
  | i :: rest => some ((t.opening i).foldl give { s with stack := t.children i ++ rest })

/-- Numbers nodes until the stack is empty, at most `fuel` of them from the stack. -/
def run (t : Tree) : Nat → Numbering → Numbering
  | 0, s => s
  | fuel + 1, s =>
    match s.step t with
    | some s => run t fuel s
    | none => s

end Numbering

/-- The places of the nodes in document order, by node.  What an attribute or a namespace node owns
has no place, and counts as being at that of the document. -/
def places (t : Tree) : Array Nat :=
  (Numbering.run t t.size ⟨Array.replicate t.size 0, 0, [0]⟩).places

/-- The place of node `i` in document order. -/
def position (t : Tree) (i : Nat) : Nat := t.places[i]?.getD 0

end Tree

end XPath
