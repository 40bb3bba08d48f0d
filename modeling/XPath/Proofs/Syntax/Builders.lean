/-
Compiling what the builders make.

The trees that the builders make are written as terms, with one constructor for each builder and
with names and numbers that are in order from the start.  A term has the syntax tree that the
builders make of it and the expression that it is meant to be, and the one compiles to the other.

* `Test`, `AxisSpecifier`, `Part`, `Term` — the terms;
* `Term.tree` — the tree that the builders make of a term;
* `Term.expr` — the expression that a term is meant to be;
* `SyntaxTree.stringBody_string` — a string comes back from its literal, whatever quotes it holds;
* `Expr.step_step`, `Expr.filtered_append` — steps and filters are taken apart into their parts;
* `built_terms_compile` — the tree of a term compiles to its expression.
-/
import XPath.Proofs.Number.RoundTrip
import XPath.Proofs.Syntax.Names

namespace XPath

/-! ### Terms -/

/-- A node test that the builders make. -/
inductive Test where
  | name (n : Name)
  | wildcard
  | inNamespace (q : Qualifier)
  | nodeType (type : NodeType)
  | instruction (target : String)

namespace Test

/-- The tree that the builders make of a test. -/
def tree : Test → SyntaxTree
  | name n => .nameTest n.text
  | wildcard => .wildcard
  | inNamespace q => .qualifiedWildcard q.text
  | nodeType type => .nodeType type.name
  | instruction target => .instructionTest target

/-- The test that is meant. -/
def test : Test → NodeTest
  | name n => n.test
  | wildcard => .wildcard
  | inNamespace q => .inNamespace q.text
  | nodeType type => .nodeType type
  | instruction target => .instruction target

end Test

/-- How a step says its axis. -/
inductive AxisSpecifier where
  /-- Not at all. -/
  | omitted
  /-- With an `@`. -/
  | abbreviated
  | named (axis : Axis)

namespace AxisSpecifier

/-- The word for an axis that a builder of steps is given. -/
def word? : AxisSpecifier → Option String
  | omitted => none
  | abbreviated => some "@"
  | named axis => some axis.name

/-- The axis that is meant. -/
def axis : AxisSpecifier → Axis
  | omitted => .child
  | abbreviated => .attribute
  | named axis => axis

end AxisSpecifier

/-- A part of a path that the builders make, with predicates of type `τ`. -/
inductive Part (τ : Type) where
  | step (specifier : AxisSpecifier) (test : Test) (predicates : List τ)
  | child (n : Name)
  | attribute (n : Name)
  | descendant
  | self
  | parent

/-- An expression that the builders make. -/
inductive Term where
  | binary (op : BinaryOperator) (l r : Term)
  | negate (t : Term)
  | paren (t : Term)
  | number (x : Float) (finite : x.isFinite = true)
  | string (s : String)
  | variableReference (n : VariableName)
  | call (n : Name) (arguments : List Term)
  | absolute (parts : List (Part Term))
  | relative (first : Part Term) (others : List (Part Term))
  | filter (primary : Term) (predicates : List Term) (steps : List (Part Term))

namespace Term

mutual

/-- The tree that the builders make of a term. -/
def tree : Term → SyntaxTree
  | .binary op l r => .binary op (tree l) (tree r)
  | .negate t => .negate (tree t)
  | .paren t => .paren (tree t)
  | .number x _ => .number x
  | .string s => .string s
  | .variableReference n => .variableReference n.text
  | .call n arguments => .call n.text (trees arguments)
  | .absolute parts => .absolute (partTrees parts)
  | .relative first others => .relative (partTree first :: partTrees others)
  | .filter primary predicates steps =>
    .filter (tree primary) ((trees predicates).map .predicate) (partTrees steps)
termination_by structural t => t

def trees : List Term → List SyntaxTree
  | [] => []
  | t :: rest => tree t :: trees rest

def partTree : Part Term → SyntaxTree
  | .step specifier test predicates =>
    .step specifier.word? test.tree ((trees predicates).map .predicate)
  | .child n => .child n.text
  | .attribute n => .attr n.text
  | .descendant => .descendant
  | .self => .selfStep
  | .parent => .parentStep

def partTrees : List (Part Term) → List SyntaxTree
  | [] => []
  | part :: rest => partTree part :: partTrees rest

end

mutual

/-- The expression that a term is meant to be. -/
def expr : Term → Expr
  | .binary op l r => .binary op (expr l) (expr r)
  | .negate t => .negate (expr t)
  | .paren t => expr t
  | .number x _ => .number x
  | .string s => .string s
  | .variableReference n => .variableReference n.text
  | .call n arguments => .call n.name (exprs arguments)
  | .absolute parts => .path .root (steps parts)
  | .relative first others => .path .context (step first :: steps others)
  | .filter primary [] [] => expr primary
  | .filter primary predicates parts =>
    .path (.filter (expr primary) (exprs predicates)) (steps parts)
termination_by structural t => t

def exprs : List Term → List Expr
  | [] => []
  | t :: rest => expr t :: exprs rest

/-- The step that a part of a path is meant to be. -/
def step : Part Term → Step Expr
  | .step specifier test predicates => ⟨specifier.axis, test.test, exprs predicates⟩
  | .child n => ⟨.child, n.test, []⟩
  | .attribute n => ⟨.attribute, n.test, []⟩
  | .descendant => ⟨.descendantOrSelf, .nodeType .node, []⟩
  | .self => ⟨.self, .nodeType .node, []⟩
  | .parent => ⟨.parent, .nodeType .node, []⟩

def steps : List (Part Term) → List (Step Expr)
  | [] => []
  | part :: rest => step part :: steps rest

end

end Term

/-! ### Leaves -/

namespace SyntaxTree

/-- What stands between equal quotes is the body, also where it holds quotes itself. -/
theorem stringBody_of_quoted {t : SyntaxTree} {quote : Char} {s : String}
    (hquote : quote = '"' ∨ quote = '\'')
    (ht : t.text.toList = quote :: (s.toList ++ [quote])) : t.stringBody = .ok s := by
  have hblank : Text.isBlank quote = false := by
    rcases hquote with rfl | rfl <;> decide
  have htrim : Text.trim t.text = t.text := by
    rw [Text.trim_eq_self_iff, ht]
    refine ⟨by simpa using hblank, ?_⟩
    rw [List.getLast?_cons_of_ne_nil (by simp)]
    simpa using hblank
  rw [stringBody, htrim, ht]
  dsimp only
  rw [if_pos hquote, List.reverse_append]
  simp

/-- A string comes back from its literal. -/
theorem stringBody_string (s : String) : (string s).stringBody = .ok s := by
  by_cases h : s.toList.contains '"'
  · apply stringBody_of_quoted (Or.inr rfl)
    rw [string, text_leaf, if_pos h]
    simp
  · apply stringBody_of_quoted (Or.inl rfl)
    rw [string, text_leaf, if_neg h]
    simp

/-- A finite number comes back from its literal. -/
theorem numberValue_number {x : Float} (h : x.isFinite = true) :
    (number x).numberValue = .ok x := by
  obtain ⟨negative, m, s, hx⟩ := Number.isFinite_iff.1 h
  rw [number, numberValue, text_leaf, Number.read_source h]
  simp only [Number.isNaN_of_parts hx, Bool.false_eq_true, if_false]

end SyntaxTree

namespace Test

/-- A node test of the builders is no axis name. -/
theorem kind_tree (t : Test) : t.tree.kind ≠ .axisName := by
  cases t with
  | name n =>
    show (if _ then SyntaxKind.prefixedNameTest else .unprefixedNameTest) ≠ _
    split <;> decide
  | wildcard | inNamespace | nodeType | instruction => exact SyntaxKind.noConfusion

/-- The tree of a node test compiles to the test. -/
theorem nodeTest_tree (t : Test) : t.tree.nodeTest = .ok t.test := by
  cases t with
  | name n => exact n.nodeTest_nameTest
  | wildcard => rfl
  | inNamespace q => exact q.nodeTest_qualifiedWildcard
  | nodeType type => cases type <;> decide
  | instruction target =>
    show (SyntaxTree.string target).stringBody.map NodeTest.instruction = _
    rw [SyntaxTree.stringBody_string]
    rfl

end Test

/-! ### Steps -/

theorem Step.ofAbbreviation_selfStep :
    Step.ofAbbreviation .selfStep = .ok (.all (ε := Expr) .self) := by
  have htrim : Text.trim "." = "." := by decide
  rw [ofAbbreviation, SyntaxTree.selfStep, SyntaxTree.text_leaf, htrim]
  rfl

theorem Step.ofAbbreviation_parentStep :
    Step.ofAbbreviation .parentStep = .ok (.all (ε := Expr) .parent) := by
  have htrim : Text.trim ".." = ".." := by decide
  rw [ofAbbreviation, SyntaxTree.parentStep, SyntaxTree.text_leaf, htrim]
  rfl

namespace Expr

section Steps

variable {tree : SyntaxTree} {test : NodeTest} {trees parts : List SyntaxTree} {es : List Expr}
  {ss : List (Step Expr)}

theorem step_step_none (hkind : tree.kind ≠ .axisName) (htest : tree.nodeTest = .ok test)
    (hpredicates : predicates trees = .ok es) :
    step (.step none tree trees) = .ok ⟨.child, test, es⟩ := by
  show step (.node .step _ (tree :: trees)) = _
  rw [step]
  simp only [if_neg hkind, hpredicates, htest]
  rfl

theorem step_step_some {word : String} {axis : Axis}
    (haxis : (SyntaxTree.leaf .axisName word).axis = .ok axis)
    (htest : tree.nodeTest = .ok test) (hpredicates : predicates trees = .ok es) :
    step (.step (some word) tree trees) = .ok ⟨axis, test, es⟩ := by
  show step (.node .step _ (.leaf .axisName word :: tree :: trees)) = _
  rw [step]
  simp only [SyntaxTree.kind_leaf, if_true, haxis, hpredicates, htest]
  rfl

/-- A step is taken apart into its axis, its test and its predicates. -/
theorem step_step (specifier : AxisSpecifier) (hkind : tree.kind ≠ .axisName)
    (htest : tree.nodeTest = .ok test) (hpredicates : predicates trees = .ok es) :
    step (.step specifier.word? tree trees) = .ok ⟨specifier.axis, test, es⟩ := by
  cases specifier with
  | omitted => exact step_step_none hkind htest hpredicates
  | abbreviated => exact step_step_some (by decide) htest hpredicates
  | named axis => exact step_step_some (by cases axis <;> decide) htest hpredicates

/-- Predicates are compiled as the expressions in them. -/
theorem predicates_map_predicate (trees : List SyntaxTree) :
    predicates (trees.map .predicate) = list trees := by
  induction trees with
  | nil => rfl
  | cons tree rest ih =>
    rw [List.map_cons, predicates, list, ih]
    rfl

theorem filtered_of_steps (h : ∀ part ∈ parts.head?, part.kind ≠ .predicate) :
    filtered parts = (steps parts).map ([], ·) := by
  cases parts with
  | nil => rfl
  | cons part rest =>
    rw [filtered, if_neg (h part rfl), steps]
    cases step part with
    | error e => rfl
    | ok first => cases steps rest <;> rfl

/-- What follows the primary expression of a filter is divided where the predicates end. -/
theorem filtered_append (hpredicates : list trees = .ok es) (hsteps : steps parts = .ok ss)
    (hkind : ∀ part ∈ parts.head?, part.kind ≠ .predicate) :
    filtered (trees.map .predicate ++ parts) = .ok (es, ss) := by
  induction trees generalizing es with
  | nil =>
    obtain rfl : [] = es := Except.ok.inj hpredicates
    rw [List.map_nil, List.nil_append, filtered_of_steps hkind, hsteps]
    rfl
  | cons tree rest ih =>
    rw [list] at hpredicates
    cases htree : ofSyntax tree with
    | error e =>
      rw [htree] at hpredicates
      cases hpredicates
    | ok e =>
      cases hrest : list rest with
      | error e =>
        rw [htree, hrest] at hpredicates
        cases hpredicates
      | ok others =>
        rw [htree, hrest] at hpredicates
        obtain rfl : e :: others = es := Except.ok.inj hpredicates
        have hkind' : (SyntaxTree.predicate tree).kind = .predicate := rfl
        have hpredicate : predicate (.predicate tree) = .ok e := htree
        rw [List.map_cons, List.cons_append, filtered, if_pos hkind', hpredicate, ih hrest]
        rfl

end Steps

/-! ### Operators and filters -/

theorem ofSyntax_binary (op : BinaryOperator) (l r : SyntaxTree) :
    ofSyntax (.binary op l r) = do
      let l ← ofSyntax l
      let r ← ofSyntax r
      return .binary op l r := by
  cases op with
  | or | and | union => rfl
  | comparison op => cases op <;> rfl
  | arithmetic op => cases op <;> rfl

/-- With something after its primary expression a filter is a path. -/
theorem ofSyntax_filter {primary : SyntaxTree} {predicates parts : List SyntaxTree} {e : Expr}
    {es : List Expr} {ss : List (Step Expr)} (hne : predicates ++ parts ≠ [])
    (hprimary : ofSyntax primary = .ok e)
    (hfiltered : filtered (predicates ++ parts) = .ok (es, ss)) :
    ofSyntax (.filter primary predicates parts) = .ok (.path (.filter e es) ss) := by
  obtain ⟨first, rest, hrest⟩ := List.exists_cons_of_ne_nil hne
  have h : ofSyntax (.filter primary predicates parts) =
      (ofSyntax primary).bind fun primary =>
        (filtered (first :: rest)).bind fun parted =>
          .ok (.path (.filter primary parted.1) parted.2) := by
    rw [SyntaxTree.filter, hrest]
    rfl
  rw [h, hprimary, ← hrest, hfiltered]
  rfl

end Expr

/-! ### Terms compile -/

namespace Term

theorem kind_partTree (part : Part Term) : (partTree part).kind ≠ .predicate := by
  cases part <;> exact SyntaxKind.noConfusion

theorem head_partTrees (parts : List (Part Term)) :
    ∀ tree ∈ (partTrees parts).head?, tree.kind ≠ .predicate := by
  cases parts with
  | nil => simp [partTrees]
  | cons part rest => simpa [partTrees] using kind_partTree part

mutual

/-- The tree of a term compiles to the expression that it is meant to be. -/
theorem ofSyntax_tree : ∀ t : Term, Expr.ofSyntax (tree t) = .ok (expr t)
  | .binary op l r => by
    rw [tree, expr, Expr.ofSyntax_binary, ofSyntax_tree l, ofSyntax_tree r]
    rfl
  | .negate t => by
    have h : Expr.ofSyntax (.negate (tree t)) = (Expr.ofSyntax (tree t)).map .negate := rfl
    rw [tree, expr, h, ofSyntax_tree t]
    rfl
  | .paren t => by
    have h : Expr.ofSyntax (.paren (tree t)) = Expr.ofSyntax (tree t) := rfl
    rw [tree, expr, h, ofSyntax_tree t]
  | .number x finite => by
    have h : Expr.ofSyntax (.number x) = (SyntaxTree.number x).numberValue.map .number := rfl
    rw [tree, expr, h, SyntaxTree.numberValue_number finite]
    rfl
  | .string s => by
    have h : Expr.ofSyntax (.string s) = (SyntaxTree.string s).stringBody.map .string := rfl
    rw [tree, expr, h, SyntaxTree.stringBody_string]
    rfl
  | .variableReference n => by
    have h : Expr.ofSyntax (.variableReference n.text) =
        (SyntaxTree.variableReference n.text).variableName.map .variableReference := rfl
    rw [tree, expr, h, n.variableName_variableReference]
    rfl
  | .call n arguments => by
    rw [tree, expr, SyntaxTree.call, Expr.ofSyntax]
    simp only [BinaryOperator.ofForm?, n.functionName_leaf, list_trees arguments]
    rfl
  | .absolute parts => by
    have h : Expr.ofSyntax (.absolute (partTrees parts)) =
        (Expr.steps (partTrees parts)).map (.path .root) := rfl
    rw [tree, expr, h, steps_partTrees parts]
    rfl
  | .relative first others => by
    have h : Expr.ofSyntax (.relative (partTree first :: partTrees others)) =
        (Expr.steps (partTree first :: partTrees others)).map (.path .context) := rfl
    rw [tree, expr, h, Expr.steps, step_partTree first, steps_partTrees others]
    rfl
  | .filter primary [] [] => by
    have h : Expr.ofSyntax (.filter (tree primary) [] []) = Expr.ofSyntax (tree primary) := rfl
    rw [tree, expr, trees, partTrees, List.map_nil, h, ofSyntax_tree primary]
  | .filter primary (t :: rest) parts => by
    show _ = Except.ok (Expr.path (.filter (expr primary) (exprs (t :: rest))) (steps parts))
    rw [tree]
    exact Expr.ofSyntax_filter (by simp [trees]) (ofSyntax_tree primary)
      (Expr.filtered_append (list_trees (t :: rest)) (steps_partTrees parts) (head_partTrees parts))
  | .filter primary [] (part :: rest) => by
    show _ = Except.ok (Expr.path (.filter (expr primary) (exprs [])) (steps (part :: rest)))
    rw [tree]
    exact Expr.ofSyntax_filter (by simp [trees, partTrees]) (ofSyntax_tree primary)
      (Expr.filtered_append (list_trees []) (steps_partTrees (part :: rest))
        (head_partTrees (part :: rest)))
termination_by structural t => t

theorem list_trees : ∀ ts : List Term, Expr.list (trees ts) = .ok (exprs ts)
  | [] => rfl
  | t :: rest => by
    rw [trees, exprs, Expr.list, ofSyntax_tree t, list_trees rest]
    rfl

/-- The tree of a part of a path compiles to the step that it is meant to be. -/
theorem step_partTree : ∀ part : Part Term, Expr.step (partTree part) = .ok (step part)
  | .step specifier test predicates => by
    have hpredicates : Expr.predicates ((trees predicates).map .predicate) =
        .ok (exprs predicates) := by
      rw [Expr.predicates_map_predicate, list_trees predicates]
    exact Expr.step_step specifier test.kind_tree test.nodeTest_tree hpredicates
  | .child n => Expr.step_step_none (Test.name n).kind_tree n.nodeTest_nameTest rfl
  | .attribute n => Expr.step_step_some (by decide) n.nodeTest_nameTest rfl
  | .descendant => rfl
  | .self => Step.ofAbbreviation_selfStep
  | .parent => Step.ofAbbreviation_parentStep

theorem steps_partTrees : ∀ parts : List (Part Term),
    Expr.steps (partTrees parts) = .ok (steps parts)
  | [] => rfl
  | part :: rest => by
    rw [partTrees, steps, Expr.steps, step_partTree part, steps_partTrees rest]
    rfl

end

end Term

end XPath
