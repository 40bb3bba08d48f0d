/-
What can go wrong.

Each error is its cause; `Error.message` words it.

* `Malformation` — what is wrong with a node of a syntax tree;
* `FunctionFault` — why a function refuses its arguments;
* `Error` — everything that compiling or evaluating an expression can end with.
-/
import XPath.Syntax.Basic
import XPath.Value.Basic

namespace XPath

/-- What is wrong with a node of a syntax tree. -/
inductive Malformation where
  | operandCount (expected found : Nat)
  | missingFunctionName
  | notFunctionName
  | emptyVariableName
  | notNumber
  | unquotedString
  | unterminatedString
  | pathWithoutSteps
  | missingFilterExpression
  | stepWithoutTest
  | notPredicate
  | notAbbreviation
  | notStep
  | unknownNodeType
  | missingQualifier
  | notNamespaceWildcard
  | notNodeTest
  | notExpression
  deriving DecidableEq, Repr

def Malformation.message : Malformation → String
  | operandCount expected found =>
    "expected " ++ toString expected ++ (if expected = 1 then " operand" else " operands") ++
      ", found " ++ toString found
  | missingFunctionName => "missing function name"
  | notFunctionName => "expected a function name"
  | emptyVariableName => "empty variable name"
  | notNumber => "not a number literal"
  | unquotedString => "unquoted string literal"
  | unterminatedString => "unterminated string literal"
  | pathWithoutSteps => "relative path without steps"
  | missingFilterExpression => "missing filter expression"
  | stepWithoutTest => "step without a node test"
  | notPredicate => "expected a predicate"
  | notAbbreviation => "expected '.' or '..'"
  | notStep => "expected a location step"
  | unknownNodeType => "unknown node type"
  | missingQualifier => "missing prefix"
  | notNamespaceWildcard => "expected 'prefix:*'"
  | notNodeTest => "expected a node test"
  | notExpression => "not an expression"

/-- How many arguments a function takes. -/
inductive Arity where
  | exactly (n : Nat)
  | atLeast (n : Nat)
  | range (low high : Nat)
  deriving DecidableEq, Repr

namespace Arity

/-- Whether a function takes this many arguments. -/
def accepts : Arity → Nat → Bool
  | exactly n, count => count == n
  | atLeast n, count => n ≤ count
  | range low high, count => low ≤ count && count ≤ high

def text : Arity → String
  | exactly n => toString n
  | atLeast n => "at least " ++ toString n
  | range low high => toString low ++ " to " ++ toString high

end Arity

/-- Why a function refuses its arguments. -/
inductive FunctionFault where
  | arity (expected : Arity) (found : Nat)
  | notNodeSet (found : ValueKind)
  /-- A reason of the function's own. -/
  | reason (message : String)
  deriving DecidableEq, Repr

def FunctionFault.message : FunctionFault → String
  | arity expected found =>
    "Expected " ++ expected.text ++ " argument(s), got " ++ toString found
  | notNodeSet found => "Argument must be a node-set, got " ++ found.name
  | reason message => message

/-- What compiling or evaluating an expression can end with instead of a value. -/
inductive Error where
  | unknownFunction (name : String)
  | functionFailed (function : String) (fault : FunctionFault)
  /-- An operator that takes node-sets was given another kind of value. -/
  | operandNotNodeSet (operator : String) (found : ValueKind)
  /-- The result is not of the kind that was asked for. -/
  | resultNotNodeSet (found : ValueKind)
  | unknownVariable (name : String)
  | unresolvedQualifier (qualifier : String)
  | unknownAxis (name : String)
  | malformed (kind : SyntaxKind) (text : String) (fault : Malformation)
  | nothingSelected (expression : String)
  /-- Evaluation could not keep a promise of its own. -/
  | internal (message : String)
  deriving DecidableEq, Repr

def Error.message : Error → String
  | unknownFunction name => "Unknown XPath function '" ++ name ++ "'"
  | functionFailed function fault => "Function '" ++ function ++ "' error: " ++ fault.message
  | operandNotNodeSet operator found =>
    "Operator '" ++ operator ++ "' requires node-set operands, got " ++ found.name
  | resultNotNodeSet found => "Type error: Expected a node-set, got a " ++ found.name
  | unknownVariable name => "Variable '" ++ name ++ "' not found"
  | unresolvedQualifier qualifier => "Namespace prefix '" ++ qualifier ++ "' is not bound"
  | unknownAxis name => "Unsupported axis '" ++ name ++ "'"
  | malformed kind text fault =>
    "Malformed " ++ kind.name ++ " node '" ++ text ++ "': " ++ fault.message
  | nothingSelected expression => "Expression '" ++ expression ++ "' selected no nodes"
  | internal message => "Internal evaluation error: " ++ message

end XPath
