/-
Expressions.

An expression is compiled from a syntax tree and holds no state of an evaluation.  The parts of
a location path are generic in what stands for an expression, so that the same types describe a
path before evaluation, where predicates are expressions, and during it, where they are what
the expressions mean.

* `NodeTest` — which nodes of an axis a step selects, and its resolution against namespaces;
* `Step`, `Start` — the parts of a location path;
* `Expr` — expressions.
-/
import XPath.Error
import XPath.Namespaces
import XPath.Tree.Axis
import XPath.Syntax.Operator

namespace XPath

/-- The types of node that a test can ask for. -/
inductive NodeType where
  | node
  | text
  | comment
  | instruction
  deriving DecidableEq, Repr

namespace NodeType

/-- The name of a type of node. -/
def name : NodeType → String
  | node => "node"
  | text => "text"
  | comment => "comment"
  | instruction => "processing-instruction"

/-- The type of node with a name. -/
def ofName? (s : String) : Option NodeType :=
  [node, text, comment, instruction].find? fun type => type.name = s

/-- A type of node is found by its name. -/
theorem ofName?_name (type : NodeType) : ofName? type.name = some type := by
  cases type <;> decide

/-- Whether a node is of a type. -/
def accepts (l : Links) (n : Node) : NodeType → Bool
  | node => true
  | text => l.isText n
  | comment => l.isComment n
  | instruction => l.isInstruction n

end NodeType

/-- Which nodes of an axis a step selects. -/
inductive NodeTest where
  /-- All nodes of a type. -/
  | nodeType (type : NodeType)
  /-- The processing instructions with a target. -/
  | instruction (target : String)
  /-- A name without a qualifier. -/
  | name (localPart : String)
  | qualified (qualifier localPart : String)
  /-- Any name. -/
  | wildcard
  /-- Any name of a namespace. -/
  | inNamespace (qualifier : String)
  deriving DecidableEq, Repr

namespace NodeTest

/-- The namespace that a test asks for.  A qualifier must be bound; without one only element
names are in the namespace for unqualified names. -/
def uri (axis : Axis) (namespaces : Namespaces) : NodeTest → Except Error (Option String)
  | qualified qualifier _ | inNamespace qualifier =>
    match namespaces (some qualifier) with
    | some uri => .ok (some uri)
    | none => .error (.unresolvedQualifier qualifier)
  | name _ => .ok (if axis.principalKind = .element then namespaces none else none)
  | nodeType _ | instruction _ | wildcard => .ok none

/-- Whether a node passes a test that asks for the namespace `uri`.  Names are tested on nodes of
the principal kind of the axis only. -/
def accepts (l : Links) (axis : Axis) (uri : Option String) (n : Node) : NodeTest → Bool
  | nodeType type => type.accepts l n
  | instruction target => l.isInstruction n && (l.name? n).any fun q => q.localPart == target
  | wildcard => l.kind n == axis.principalKind
  | inNamespace _ => l.kind n == axis.principalKind && (l.name? n).any fun q => q.uri == uri
  | name localPart | qualified _ localPart =>
    l.kind n == axis.principalKind &&
      (l.name? n).any fun q => q.localPart == localPart && q.uri == uri

/-- A test as an expression writes it. -/
def text : NodeTest → String
  | nodeType type => type.name ++ "()"
  | instruction target => "processing-instruction('" ++ target ++ "')"
  | name localPart => localPart
  | qualified qualifier localPart => qualifier ++ ":" ++ localPart
  | wildcard => "*"
  | inNamespace qualifier => qualifier ++ ":*"

end NodeTest

/-- A step of a location path, with predicates of type `ε`. -/
structure Step (ε : Type) where
  axis : Axis
  test : NodeTest
  predicates : List ε

/-- A step as a message shows it: its predicates are only counted. -/
def Step.text {ε : Type} (s : Step ε) : String :=
  let count := s.predicates.length
  s.axis.name ++ "::" ++ s.test.text ++
    if count = 0 then "" else "[" ++ toString count ++ " predicate(s)]"

/-- Where a location path starts. -/
inductive Start (ε : Type) where
  /-- At the root of the evaluation. -/
  | root
  | context
  /-- At the nodes that an expression selects and predicates keep. -/
  | filter (primary : ε) (predicates : List ε)

inductive Expr where
  | or (l r : Expr)
  | and (l r : Expr)
  | compare (op : Comparison) (l r : Expr)
  | arithmetic (op : Arithmetic) (l r : Expr)
  | negate (e : Expr)
  | union (l r : Expr)
  | call (name : QName) (arguments : List Expr)
  | number (x : Float)
  | string (s : String)
  /-- A variable, by its name with the qualifier it is written with. -/
  | variableReference (name : String)
  | path (start : Start Expr) (steps : List (Step Expr))

/-- The expression that applies an operator. -/
def Expr.binary : BinaryOperator → Expr → Expr → Expr
  | .or => .or
  | .and => .and
  | .union => .union
  | .comparison op => .compare op
  | .arithmetic op => .arithmetic op

end XPath
