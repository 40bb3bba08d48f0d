/-
Values.

An expression has one of four kinds of value: a set of nodes, a string, a number or a truth
value.  Each kind converts to the other scalar kinds; what a node-set converts to is decided by
the string-value of the one of its nodes that comes first in document order.

* `NodeSet` — nodes without repetition, in the order in which they were found;
* `Value`, `ValueKind` — the four kinds;
* `Value.toBool`, `Value.toNumber`, `Value.toText` — the conversions.
-/
import XPath.Number.Text
import XPath.Tree.Order

namespace XPath

/-- A set of nodes, kept in the order in which its nodes were found. -/
structure NodeSet where
  nodes : List Node
  deriving DecidableEq, Repr

namespace NodeSet

def empty : NodeSet := ⟨[]⟩

/-- The set of the nodes of a list, in the order of their first occurrences. -/
def ofList (nodes : List Node) : NodeSet := ⟨firstOccurrences nodes⟩

def isEmpty (s : NodeSet) : Bool := s.nodes.isEmpty

def size (s : NodeSet) : Nat := s.nodes.length

/-- Whether a node is in a set. -/
def contains (s : NodeSet) (n : Node) : Bool := s.nodes.contains n

/-- The same nodes in document order. -/
def sorted (v : View) (s : NodeSet) : NodeSet := ⟨v.sort s.nodes⟩

/-- The nodes that are in one set or the other, in document order. -/
def union (v : View) (s t : NodeSet) : NodeSet := (ofList (s.nodes ++ t.nodes)).sorted v

/-- The node that comes first in document order. -/
def first? (v : View) (s : NodeSet) : Option Node := v.first? s.nodes

/-- The string-value of the first node, empty if there is none. -/
def toText (v : View) (s : NodeSet) : String :=
  match s.first? v with
  | some n => v.stringValue n
  | none => ""

/-- The number that the string-value of the first node stands for. -/
def toNumber (v : View) (s : NodeSet) : Float := Number.read (s.toText v)

end NodeSet

inductive ValueKind where
  | nodeSet
  | string
  | number
  | boolean
  deriving DecidableEq, Repr

/-- The name of a kind of value. -/
def ValueKind.name : ValueKind → String
  | .nodeSet => "node-set"
  | .string => "string"
  | .number => "number"
  | .boolean => "boolean"

inductive Value where
  | nodeSet (nodes : NodeSet)
  | string (s : String)
  | number (x : Float)
  | boolean (b : Bool)

namespace Value

def kind : Value → ValueKind
  | nodeSet _ => .nodeSet
  | string _ => .string
  | number _ => .number
  | boolean _ => .boolean

/-- The set of the nodes of a list, as a value. -/
def ofNodes (nodes : List Node) : Value := nodeSet (.ofList nodes)

/-- A node-set is true if it has nodes, a string if it has characters, and a number unless it is
zero or NaN. -/
def toBool : Value → Bool
  | nodeSet s => !s.isEmpty
  | string s => !s.isEmpty
  | number x => x != 0 && !x.isNaN
  | boolean b => b

/-- A string converts to the number it writes, NaN if it writes none, a node-set by way of its
string, and a truth value to one or zero. -/
def toNumber (v : View) : Value → Float
  | nodeSet s => s.toNumber v
  | string s => Number.read s
  | number x => x
  | boolean b => if b then 1 else 0

/-- A node-set converts to the string-value of its first node. -/
def toText (v : View) : Value → String
  | nodeSet s => s.toText v
  | string s => s
  | number x => Number.write x
  | boolean b => if b then "true" else "false"

/-- Whether two values are of one kind with the same content: node-sets as lists, numbers as
numbers, so that NaN differs from itself. -/
def same : Value → Value → Bool
  | nodeSet s, nodeSet t => s == t
  | string s, string t => s == t
  | number x, number y => x == y
  | boolean a, boolean b => a == b
  | _, _ => false

end Value

end XPath
