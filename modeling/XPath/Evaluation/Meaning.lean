/-
What expressions mean.

`Expr.meaning` gives, by recursion on an expression, how its value is found in a context, how its
truth is found, and what it says as a predicate.  Operands are evaluated from left to right;
`or` and `and` leave the right one out if the left one decides, and so does arithmetic if the
left one is NaN.

* `Interpretation` — what is open in it: functions, conversion to numbers and paths;
* `Interpretation.standard` — how the engine evaluates;
* `Expr.meaning` — the recursion.
-/
import XPath.Evaluation.Path

namespace XPath

/-- What the meaning of an expression depends on. -/
structure Interpretation where
  setting : Setting
  library : Library
  /-- How values convert to numbers. -/
  numberOf : Context → Value → Eval Float
  /-- What a location path means. -/
  path : Start Meaning → List (Step Meaning) → Meaning

/-- The interpretation of the engine: strings convert as the library says, and paths are followed
no further than needed. -/
def Interpretation.standard (library : Library) (setting : Setting) : Interpretation where
  setting := setting
  library := library
  numberOf := library.numberOf setting
  path := Path.meaning setting

namespace Meaning

/-- `or` if `decisive` is true, `and` if it is false: the right operand counts only if the left
one is not decisive. -/
def connective (decisive : Bool) (l r : Meaning) : Meaning :=
  ofValue fun c => do
    if (← l.truth c) == decisive then return .boolean decisive
    return .boolean (← r.truth c)

def comparison (i : Interpretation) (op : Comparison) (l r : Meaning) : Meaning :=
  ofValue fun c => do
    let a ← l.value c
    let b ← r.value c
    return .boolean (← op.holdsWith i.setting.view (i.numberOf c) a b)

def arithmetic (i : Interpretation) (op : Arithmetic) (l r : Meaning) : Meaning :=
  ofValue fun c => do
    let x ← i.numberOf c (← l.value c)
    -- Nothing the right operand could be changes this, so it is not evaluated.
    if x.isNaN then return .number Number.nan
    let y ← i.numberOf c (← r.value c)
    return .number (op.apply x y)

def negation (i : Interpretation) (e : Meaning) : Meaning :=
  ofValue fun c => do return .number (-(← i.numberOf c (← e.value c)))

/-- The set that an operand of a union must be. -/
def unionOperand : Value → Eval NodeSet
  | .nodeSet s => pure s
  | other => throw (.operandNotNodeSet "|" other.kind)

def union (i : Interpretation) (l r : Meaning) : Meaning :=
  ofValue fun c => do
    let s ← unionOperand (← l.value c)
    let t ← unionOperand (← r.value c)
    return .nodeSet (s.union i.setting.view t)

/-- Why a function cannot be found. A qualifier that is not bound is the better reason. -/
def unknownFunction (setting : Setting) (name : QName) : Error :=
  match name.qualifier with
  | some qualifier =>
    if (setting.namespaces (some qualifier)).isNone then .unresolvedQualifier qualifier
    else .unknownFunction name.toText
  | none => .unknownFunction name.toText

/-- A call of a function. -/
def call (i : Interpretation) (name : QName) (arguments : List Meaning) : Meaning :=
  let arguments := arguments.map (·.toArgument)
  ofValue fun c =>
    match i.library name i.setting c with
    | some function =>
      function {
        setting := i.setting
        context := c
        arguments := arguments
        numberOf := i.numberOf }
    | none => throw (unknownFunction i.setting name)

def variableReference (i : Interpretation) (name : String) : Meaning :=
  ofValue fun _ =>
    match i.setting.bindings.lookup name with
    | some value => pure value
    | none => if i.setting.strict then throw (.unknownVariable name) else pure (.string "")

def number (x : Float) : Meaning :=
  { ofValue (fun _ => pure (.number x)) with predicate := .position x }

end Meaning

namespace Expr

variable (i : Interpretation)

mutual

/-- What an expression means. -/
def meaning : Expr → Meaning
  | .or l r => .connective true (meaning l) (meaning r)
  | .and l r => .connective false (meaning l) (meaning r)
  | .compare op l r => .comparison i op (meaning l) (meaning r)
  | .arithmetic op l r => .arithmetic i op (meaning l) (meaning r)
  | .negate e => .negation i (meaning e)
  | .union l r => .union i (meaning l) (meaning r)
  | .call name arguments => .call i name (meanings arguments)
  | .number x => .number x
  | .string s => .ofValue fun _ => pure (.string s)
  | .variableReference name => .variableReference i name
  | .path start steps => i.path (startMeaning start) (stepMeanings steps)
termination_by structural e => e

def meanings : List Expr → List Meaning
  | [] => []
  | e :: rest => meaning e :: meanings rest

def startMeaning : Start Expr → Start Meaning
  | .root => .root
  | .context => .context
  | .filter primary predicates => .filter (meaning primary) (meanings predicates)

def stepMeaning : Step Expr → Step Meaning
  | ⟨axis, test, predicates⟩ => ⟨axis, test, meanings predicates⟩

def stepMeanings : List (Step Expr) → List (Step Meaning)
  | [] => []
  | s :: rest => stepMeaning s :: stepMeanings rest

end

/-- The steps of a path mean what each of them means. -/
theorem stepMeanings_eq_map (steps : List (Step Expr)) :
    stepMeanings i steps = steps.map (stepMeaning i) := by
  induction steps with
  | nil => rfl
  | cons s rest ih => rw [stepMeanings, ih, List.map_cons]

theorem stepMeanings_append (steps more : List (Step Expr)) :
    stepMeanings i (steps ++ more) = stepMeanings i steps ++ stepMeanings i more := by
  simp only [stepMeanings_eq_map, List.map_append]

theorem meanings_append (es more : List Expr) :
    meanings i (es ++ more) = meanings i es ++ meanings i more := by
  induction es with
  | nil => rfl
  | cons e rest ih => rw [List.cons_append, meanings, meanings, ih, List.cons_append]

end Expr

end XPath
