/-
Writing syntax trees.

One function for each form of syntax: it takes the parts and puts their texts together to the
text of the whole.
-/
import XPath.Syntax.Operator

namespace XPath.SyntaxTree

def binary (op : BinaryOperator) (l r : SyntaxTree) : SyntaxTree :=
  node op.form (l.text ++ " " ++ op.symbol ++ " " ++ r.text) [l, r]

def negate (e : SyntaxTree) : SyntaxTree := node .unaryMinusExpr ("-" ++ e.text) [e]

def paren (e : SyntaxTree) : SyntaxTree := node .parenthesizedExpr ("(" ++ e.text ++ ")") [e]

def number (x : Float) : SyntaxTree := leaf .numberLiteral (Number.source x)

/-- A string, between double quotes unless it holds one itself. -/
def string (s : String) : SyntaxTree :=
  let quote := if s.toList.contains '"' then "'" else "\""
  leaf .stringLiteral (quote ++ s ++ quote)

def variableReference (name : String) : SyntaxTree := leaf .variableReference ("$" ++ name)

def call (name : String) (arguments : List SyntaxTree) : SyntaxTree :=
  node .functionCall (name ++ "(" ++ ", ".intercalate (arguments.map text) ++ ")")
    (leaf .functionName name :: arguments)

/-- The text of a path: a slash between steps that no double slash stands between, and in front
if `slash`. -/
def pathText (slash : Bool) : List SyntaxTree → String
  | [] => ""
  | part :: rest =>
    if part.kind = .descendantSeparator then "//" ++ pathText false rest
    else (if slash then "/" else "") ++ part.text ++ pathText true rest

/-- A path from the root; without steps it is a slash. -/
def absolute (parts : List SyntaxTree) : SyntaxTree :=
  let text := pathText true parts
  node .absoluteLocationPath (if text.isEmpty then "/" else text) parts

/-- A path from the context node. -/
def relative (parts : List SyntaxTree) : SyntaxTree :=
  node .relativeLocationPath (pathText false parts) parts

/-- The texts of trees, one after the other. -/
def joinTexts (parts : List SyntaxTree) : String := String.join (parts.map text)

/-- An expression with predicates and a path from what it selects. -/
def filter (primary : SyntaxTree) (predicates steps : List SyntaxTree) : SyntaxTree :=
  node .filterPathExpr (primary.text ++ joinTexts predicates ++ pathText true steps)
    (primary :: (predicates ++ steps))

/-- The text of an axis in front of a node test. -/
def axisText : Option String → String
  | some "@" => "@"
  | some name => name ++ "::"
  | none => ""

/-- A step, on the child axis if none is given. -/
def step (axis : Option String) (test : SyntaxTree) (predicates : List SyntaxTree) :
    SyntaxTree :=
  node .step (axisText axis ++ test.text ++ joinTexts predicates)
    ((axis.map (leaf .axisName)).toList ++ test :: predicates)

/-- A test for a name, which has a qualifier if it has a colon. -/
def nameTest (name : String) : SyntaxTree :=
  leaf (if name.toList.contains ':' then .prefixedNameTest else .unprefixedNameTest) name

/-- A step to the children with a name. -/
def child (name : String) : SyntaxTree := step none (nameTest name) []

/-- A step to the attributes with a name. -/
def attr (name : String) : SyntaxTree := step (some "@") (nameTest name) []

/-- The test `*`. -/
def wildcard : SyntaxTree := leaf .unprefixedWildcardTest "*"

/-- The test for any name of a namespace. -/
def qualifiedWildcard (qualifier : String) : SyntaxTree :=
  leaf .prefixedWildcardTest (qualifier ++ ":*")

/-- The test for a type of node. -/
def nodeType (name : String) : SyntaxTree := leaf .nodeTypeTest (name ++ "()")

/-- The test for a processing instruction with a target. -/
def instructionTest (target : String) : SyntaxTree :=
  let literal := string target
  node .instructionNameTest ("processing-instruction(" ++ literal.text ++ ")") [literal]

def predicate (e : SyntaxTree) : SyntaxTree := node .predicate ("[" ++ e.text ++ "]") [e]

/-- The double slash. -/
def descendant : SyntaxTree := leaf .descendantSeparator "//"

/-- The step `.`. -/
def selfStep : SyntaxTree := leaf .abbreviatedStep "."

/-- The step `..`. -/
def parentStep : SyntaxTree := leaf .abbreviatedStep ".."

end XPath.SyntaxTree
