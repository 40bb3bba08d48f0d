/-
Compiling syntax trees to expressions.

Compilation checks the shape of a tree from the outside in and from left to right, and reports
the first node that is not as its place asks.  Only predicates are checked before the node test
of their step.  Parentheses leave no trace, `//` stands for `descendant-or-self::node()`, and the
dots for `self::node()` and `parent::node()`.

* `Expr.ofSyntax` — the compiler, by recursion on the tree.
-/
import XPath.Expr.Basic

namespace XPath

namespace SyntaxTree

/-- The error that a node is not as it should be. -/
def malformed (t : SyntaxTree) (fault : Malformation) : Error := .malformed t.kind t.text fault

/-- The body of a quoted text, as it stands. -/
def stringBody (t : SyntaxTree) : Except Error String :=
  match (Text.trim t.text).toList with
  | quote :: rest =>
    if quote = '"' ∨ quote = '\'' then
      match rest.reverse with
      | last :: body =>
        if last = quote then .ok (String.ofList body.reverse)
        else .error (t.malformed .unterminatedString)
      | [] => .error (t.malformed .unterminatedString)
    else .error (t.malformed .unquotedString)
  | [] => .error (t.malformed .unquotedString)

/-- The name that a reference to a variable writes, which may follow a dollar sign. -/
def variableName (t : SyntaxTree) : Except Error String :=
  let text := Text.trim t.text
  let name := match text.toList with
    | '$' :: rest => Text.trim (String.ofList rest)
    | _ => text
  if name.isEmpty then .error (t.malformed .emptyVariableName) else .ok name

/-- The number that a literal writes. -/
def numberValue (t : SyntaxTree) : Except Error Float :=
  let x := Number.read t.text
  if x.isNaN then .error (t.malformed .notNumber) else .ok x

/-- The axis that an axis name names. -/
def axis (t : SyntaxTree) : Except Error Axis :=
  let name := Text.trim t.text
  match Axis.ofText? name with
  | some axis => .ok axis
  | none => .error (.unknownAxis name)

/-- The type of node that a test for a type names; what follows an opening parenthesis does not
count. -/
def nodeTypeTest (t : SyntaxTree) : Except Error NodeTest :=
  let name := (Text.trim t.text).toList.takeWhile (· != '(')
  match NodeType.ofName? (Text.trim (String.ofList name)) with
  | some type => .ok (.nodeType type)
  | none => .error (t.malformed .unknownNodeType)

/-- The qualifier of a text that ends in `:*`. -/
def wildcardQualifier? (s : String) : Option String :=
  match s.toList.reverse with
  | '*' :: ':' :: rest => some (String.ofList rest.reverse)
  | _ => none

/-- The node test that a tree writes. -/
def nodeTest (t : SyntaxTree) : Except Error NodeTest :=
  let text := Text.trim t.text
  match t.kind with
  | .nodeTypeTest => t.nodeTypeTest
  | .instructionNameTest =>
    match t.children with
    | [literal] => literal.stringBody.map .instruction
    | parts => .error (t.malformed (.operandCount 1 parts.length))
  | .unprefixedNameTest => .ok (.name text)
  | .prefixedNameTest =>
    match splitColon? text with
    | some (qualifier, localPart) => .ok (.qualified qualifier localPart)
    | none => .error (t.malformed .missingQualifier)
  | .unprefixedWildcardTest => .ok .wildcard
  | .prefixedWildcardTest =>
    match wildcardQualifier? text with
    | some qualifier => .ok (.inNamespace qualifier)
    | none => .error (t.malformed .notNamespaceWildcard)
  | _ => .error (t.malformed .notNodeTest)

/-- The name of the function that a call names. -/
def functionName (t : SyntaxTree) : Except Error QName :=
  if t.kind = .functionName then .ok (.ofText (Text.trim t.text))
  else .error (t.malformed .notFunctionName)

end SyntaxTree

/-- The step to all nodes on an axis. -/
def Step.all {ε : Type} (axis : Axis) : Step ε := ⟨axis, .nodeType .node, []⟩

/-- The step that a dot or two dots stand for. -/
def Step.ofAbbreviation {ε : Type} (t : SyntaxTree) : Except Error (Step ε) :=
  match Text.trim t.text with
  | "." => .ok (.all .self)
  | ".." => .ok (.all .parent)
  | _ => .error (t.malformed .notAbbreviation)

namespace Expr

open SyntaxTree

mutual

/-- Compiles an expression. -/
def ofSyntax : SyntaxTree → Except Error Expr
  | .node kind text parts =>
    let t := SyntaxTree.node kind text parts
    match BinaryOperator.ofForm? kind with
    | some op =>
      match parts with
      | [l, r] => do
        let l ← ofSyntax l
        let r ← ofSyntax r
        return .binary op l r
      | _ => .error (t.malformed (.operandCount 2 parts.length))
    | none =>
      match kind with
      | .unaryMinusExpr => (only t parts).map .negate
      | .parenthesizedExpr => only t parts
      | .functionCall =>
        match parts with
        | name :: arguments => do
          let name ← functionName name
          let arguments ← list arguments
          return .call name arguments
        | [] => .error (t.malformed .missingFunctionName)
      | .variableReference => t.variableName.map .variableReference
      | .numberLiteral => t.numberValue.map .number
      | .stringLiteral => t.stringBody.map .string
      | .absoluteLocationPath => (steps parts).map (.path .root)
      | .relativeLocationPath =>
        if parts.isEmpty then .error (t.malformed .pathWithoutSteps)
        else (steps parts).map (.path .context)
      | .filterPathExpr =>
        match parts with
        -- With nothing after it, the primary expression need not be a node-set.
        | [primary] => ofSyntax primary
        | primary :: rest => do
          let primary ← ofSyntax primary
          let (predicates, steps) ← filtered rest
          return .path (.filter primary predicates) steps
        | [] => .error (t.malformed .missingFilterExpression)
      | _ => .error (t.malformed .notExpression)
termination_by structural t => t

/-- Compiles the only part that `t` may have. -/
def only (t : SyntaxTree) : List SyntaxTree → Except Error Expr
  | [e] => ofSyntax e
  | parts => .error (t.malformed (.operandCount 1 parts.length))

def list : List SyntaxTree → Except Error (List Expr)
  | [] => .ok []
  | e :: rest => do
    let e ← ofSyntax e
    let rest ← list rest
    return e :: rest

/-- Compiles what follows the primary expression of a filter: predicates, then steps. -/
def filtered : List SyntaxTree → Except Error (List Expr × List (Step Expr))
  | [] => .ok ([], [])
  | part :: rest =>
    if part.kind = .predicate then do
      let e ← predicate part
      let (predicates, steps) ← filtered rest
      return (e :: predicates, steps)
    else do
      let first ← step part
      let others ← steps rest
      return ([], first :: others)

/-- Compiles the expression in a predicate. -/
def predicate : SyntaxTree → Except Error Expr
  | .node kind text parts =>
    let t := SyntaxTree.node kind text parts
    if kind = .predicate then only t parts else .error (t.malformed .notPredicate)

/-- Compiles predicates, first to last. -/
def predicates : List SyntaxTree → Except Error (List Expr)
  | [] => .ok []
  | p :: rest => do
    let p ← predicate p
    let rest ← predicates rest
    return p :: rest

/-- Compiles one part of a path. -/
def step : SyntaxTree → Except Error (Step Expr)
  | .node kind text parts =>
    let t := SyntaxTree.node kind text parts
    match kind with
    | .step =>
      match parts with
      | [] => .error (t.malformed .stepWithoutTest)
      | first :: rest =>
        if first.kind = .axisName then do
          let axis ← first.axis
          match rest with
          | [] => .error (t.malformed .stepWithoutTest)
          | test :: rest => do
            -- In this order, so that an error in a predicate is the one that is reported.
            let predicates ← predicates rest
            let test ← test.nodeTest
            return ⟨axis, test, predicates⟩
        else do
          let predicates ← predicates rest
          let test ← first.nodeTest
          return ⟨.child, test, predicates⟩
    | .abbreviatedStep => Step.ofAbbreviation t
    | .descendantSeparator => .ok (.all .descendantOrSelf)
    | _ => .error (t.malformed .notStep)

/-- Compiles the parts of a path, first to last. -/
def steps : List SyntaxTree → Except Error (List (Step Expr))
  | [] => .ok []
  | part :: rest => do
    let first ← step part
    let others ← steps rest
    return first :: others

end

end Expr

end XPath
