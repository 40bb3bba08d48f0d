/-
Syntax trees.

What a parser of expressions hands over: trees of nodes with a kind, the text they were read
from and their parts in order.  Nothing here promises that the parts of a node are those that
its kind asks for.

* `SyntaxKind` — the syntactic forms, and their names;
* `SyntaxTree` — the trees, with decidable equality.
-/

namespace XPath

/-- The forms of syntax. -/
inductive SyntaxKind where
  | orExpr
  | andExpr
  | eqExpr
  | neExpr
  | ltExpr
  | lteExpr
  | gtExpr
  | gteExpr
  | addExpr
  | subtractExpr
  | multiplyExpr
  | divideExpr
  | moduloExpr
  | unaryMinusExpr
  | unionExpr
  | parenthesizedExpr
  | functionCall
  | variableReference
  | numberLiteral
  | stringLiteral
  | absoluteLocationPath
  | relativeLocationPath
  | filterPathExpr
  | functionName
  | step
  | axisName
  | abbreviatedStep
  | descendantSeparator
  | predicate
  | nodeTypeTest
  | instructionNameTest
  | unprefixedNameTest
  | prefixedNameTest
  | unprefixedWildcardTest
  | prefixedWildcardTest
  deriving DecidableEq, Repr

namespace SyntaxKind

/-- Every form of syntax: first the expressions, then their parts. -/
def all : List SyntaxKind :=
  [orExpr, andExpr, eqExpr, neExpr, ltExpr, lteExpr, gtExpr, gteExpr, addExpr, subtractExpr,
   multiplyExpr, divideExpr, moduloExpr, unaryMinusExpr, unionExpr, parenthesizedExpr,
   functionCall, variableReference, numberLiteral, stringLiteral, absoluteLocationPath,
   relativeLocationPath, filterPathExpr, functionName, step, axisName, abbreviatedStep,
   descendantSeparator, predicate, nodeTypeTest, instructionNameTest, unprefixedNameTest,
   prefixedNameTest, unprefixedWildcardTest, prefixedWildcardTest]

/-- The name of a form, as messages give it. -/
def name : SyntaxKind → String
  | orExpr => "OrExpr"
  | andExpr => "AndExpr"
  | eqExpr => "EqExpr"
  | neExpr => "NeExpr"
  | ltExpr => "LtExpr"
  | lteExpr => "LteExpr"
  | gtExpr => "GtExpr"
  | gteExpr => "GteExpr"
  | addExpr => "AddExpr"
  | subtractExpr => "SubtractExpr"
  | multiplyExpr => "MultiplyExpr"
  | divideExpr => "DivideExpr"
  | moduloExpr => "ModuloExpr"
  | unaryMinusExpr => "UnaryMinusExpr"
  | unionExpr => "UnionExpr"
  | parenthesizedExpr => "ParenthesizedExpr"
  | functionCall => "FunctionCall"
  | variableReference => "VariableReference"
  | numberLiteral => "NumberLiteral"
  | stringLiteral => "StringLiteral"
  | absoluteLocationPath => "AbsoluteLocationPath"
  | relativeLocationPath => "RelativeLocationPath"
  | filterPathExpr => "FilterPathExpr"
  | functionName => "FunctionName"
  | step => "Step"
  | axisName => "AxisName"
  | abbreviatedStep => "AbbreviatedStep"
  | descendantSeparator => "DescendantSeparator"
  | predicate => "Predicate"
  | nodeTypeTest => "NodeTypeTest"
  | instructionNameTest => "ProcessingInstructionNameTest"
  | unprefixedNameTest => "UnprefixedNameTest"
  | prefixedNameTest => "PrefixedNameTest"
  | unprefixedWildcardTest => "UnprefixedWildcardTest"
  | prefixedWildcardTest => "PrefixedWildcardTest"

/-- The form with a name. -/
def ofName? (s : String) : Option SyntaxKind := all.find? fun kind => kind.name == s

end SyntaxKind

inductive SyntaxTree where
  | node (kind : SyntaxKind) (text : String) (children : List SyntaxTree)

namespace SyntaxTree

def kind : SyntaxTree → SyntaxKind
  | node k _ _ => k

/-- The text a tree was read from. -/
def text : SyntaxTree → String
  | node _ t _ => t

def children : SyntaxTree → List SyntaxTree
  | node _ _ c => c

instance : Inhabited SyntaxTree := ⟨node .orExpr "" []⟩

/-- A tree without parts. -/
def leaf (kind : SyntaxKind) (text : String) : SyntaxTree := node kind text []

mutual

/-- Decides whether two trees are equal. -/
def decEq : (a b : SyntaxTree) → Decidable (a = b)
  | node k t c, node k' t' c' =>
    if hk : k = k' then
      if ht : t = t' then
        match decEqList c c' with
        | isTrue hc => isTrue (by rw [hk, ht, hc])
        | isFalse hc => isFalse (by simp [hc])
      else isFalse (by simp [ht])
    else isFalse (by simp [hk])

/-- Decides whether two lists of trees are equal. -/
def decEqList : (a b : List SyntaxTree) → Decidable (a = b)
  | [], [] => isTrue rfl
  | [], _ :: _ => isFalse (by simp)
  | _ :: _, [] => isFalse (by simp)
  | a :: as, b :: bs =>
    match decEq a b with
    | isFalse h => isFalse (by simp [h])
    | isTrue h =>
      match decEqList as bs with
      | isFalse hs => isFalse (by simp [hs])
      | isTrue hs => isTrue (by rw [h, hs])

end

instance : DecidableEq SyntaxTree := decEq

end SyntaxTree

end XPath
