/-
Other names in an expression.

The names in an expression that are not of functions stand in node tests and in references to
variables.  Other tests and other expressions can be put in their place, and then the expression
means what these make it mean: a relation between meanings that goes through all forms of expression
holds between the two if it holds at these names.

* `Reference`, `Expr.references` — the tests and variables that an expression refers to;
* `Rewriting`, `Expr.rewrite` — what is put in for them;
* `Rewriting.Relates` — a relation that goes through all forms of expression;
* `Rewriting.relates_meaning` — it holds between an expression and what it is rewritten to;
* `Rewriting.Keeps` — what is asked of two interpretations for the meaning to stay the same;
* `Rewriting.meaning_eq` — and then it does;
* `Accord.relates` — every accord is such a relation.
-/
import XPath.Proofs.Evaluation.Calls
import XPath.Proofs.Evaluation.Accord

namespace XPath

/-- A name that an expression refers to, other than that of a function. -/
inductive Reference where
  | variableReference (name : String)
  | nodeTest (test : NodeTest)
  deriving DecidableEq, Repr

/-- What is put in for the tests and variables of an expression. -/
structure Rewriting where
  nodeTest : NodeTest → NodeTest
  variableReference : String → Expr

/-- Leaves every test and every variable as it is. -/
def Rewriting.refl : Rewriting := ⟨id, .variableReference⟩

namespace Expr

mutual

/-- The tests and variables that an expression refers to. -/
def references : Expr → List Reference
  | .or l r => references l ++ references r
  | .and l r => references l ++ references r
  | .compare _ l r => references l ++ references r
  | .arithmetic _ l r => references l ++ references r
  | .negate e => references e
  | .union l r => references l ++ references r
  | .call _ arguments => listReferences arguments
  | .number _ => []
  | .string _ => []
  | .variableReference name => [.variableReference name]
  | .path start steps => startReferences start ++ stepsReferences steps
termination_by structural e => e

def listReferences : List Expr → List Reference
  | [] => []
  | e :: rest => references e ++ listReferences rest

def startReferences : Start Expr → List Reference
  | .root => []
  | .context => []
  | .filter primary predicates => references primary ++ listReferences predicates

def stepReferences : Step Expr → List Reference
  | ⟨_, test, predicates⟩ => .nodeTest test :: listReferences predicates

def stepsReferences : List (Step Expr) → List Reference
  | [] => []
  | s :: rest => stepReferences s ++ stepsReferences rest

end

variable (w : Rewriting)

mutual

/-- An expression with other tests and with expressions for its variables. -/
def rewrite : Expr → Expr
  | .or l r => .or (rewrite l) (rewrite r)
  | .and l r => .and (rewrite l) (rewrite r)
  | .compare op l r => .compare op (rewrite l) (rewrite r)
  | .arithmetic op l r => .arithmetic op (rewrite l) (rewrite r)
  | .negate e => .negate (rewrite e)
  | .union l r => .union (rewrite l) (rewrite r)
  | .call name arguments => .call name (rewriteList arguments)
  | .number x => .number x
  | .string s => .string s
  | .variableReference name => w.variableReference name
  | .path start steps => .path (rewriteStart start) (rewriteSteps steps)
termination_by structural e => e

def rewriteList : List Expr → List Expr
  | [] => []
  | e :: rest => rewrite e :: rewriteList rest

def rewriteStart : Start Expr → Start Expr
  | .root => .root
  | .context => .context
  | .filter primary predicates => .filter (rewrite primary) (rewriteList predicates)

def rewriteStep : Step Expr → Step Expr
  | ⟨axis, test, predicates⟩ => ⟨axis, w.nodeTest test, rewriteList predicates⟩

def rewriteSteps : List (Step Expr) → List (Step Expr)
  | [] => []
  | s :: rest => rewriteStep s :: rewriteSteps rest

end

mutual

theorem rewrite_refl : ∀ e : Expr, rewrite .refl e = e
  | .or l r => by rw [rewrite, rewrite_refl l, rewrite_refl r]
  | .and l r => by rw [rewrite, rewrite_refl l, rewrite_refl r]
  | .compare op l r => by rw [rewrite, rewrite_refl l, rewrite_refl r]
  | .arithmetic op l r => by rw [rewrite, rewrite_refl l, rewrite_refl r]
  | .negate e => by rw [rewrite, rewrite_refl e]
  | .union l r => by rw [rewrite, rewrite_refl l, rewrite_refl r]
  | .call name arguments => by rw [rewrite, rewriteList_refl arguments]
  | .number x => by rw [rewrite]
  | .string s => by rw [rewrite]
  | .variableReference name => by rw [rewrite]; rfl
  | .path start steps => by rw [rewrite, rewriteStart_refl start, rewriteSteps_refl steps]
termination_by structural e => e

theorem rewriteList_refl : ∀ es : List Expr, rewriteList .refl es = es
  | [] => by rw [rewriteList]
  | e :: rest => by rw [rewriteList, rewrite_refl e, rewriteList_refl rest]

theorem rewriteStart_refl : ∀ start : Start Expr, rewriteStart .refl start = start
  | .root => by rw [rewriteStart]
  | .context => by rw [rewriteStart]
  | .filter primary predicates => by
    rw [rewriteStart, rewrite_refl primary, rewriteList_refl predicates]

theorem rewriteStep_refl : ∀ s : Step Expr, rewriteStep .refl s = s
  | ⟨axis, test, predicates⟩ => by
    rw [rewriteStep, rewriteList_refl predicates]
    rfl

theorem rewriteSteps_refl : ∀ steps : List (Step Expr), rewriteSteps .refl steps = steps
  | [] => by rw [rewriteSteps]
  | s :: rest => by rw [rewriteSteps, rewriteStep_refl s, rewriteSteps_refl rest]

end

end Expr

namespace Rewriting

/-- Starts of paths whose parts are related. -/
inductive Starts (R : Meaning → Meaning → Prop) : Start Meaning → Start Meaning → Prop
  | root : Starts R .root .root
  | context : Starts R .context .context
  | filter {m m' ps ps'} (h : R m m') (hp : List.Forall₂ R ps ps') :
      Starts R (.filter m ps) (.filter m' ps')

/-- Steps on one axis whose predicates are related, the second with the test that is put in for that
of the first. -/
structure Steps (w : Rewriting) (Q : Reference → Prop) (R : Meaning → Meaning → Prop)
    (s t : Step Meaning) : Prop where
  axis : s.axis = t.axis
  test : t.test = w.nodeTest s.test
  asked : Q (.nodeTest s.test)
  predicates : List.Forall₂ R s.predicates t.predicates

/-- A relation between what expressions mean in one interpretation and what rewritten ones mean in
another, as far as they call functions whose names satisfy `P` and refer to what satisfies `Q`. -/
structure Relates (w : Rewriting) (i j : Interpretation) (P : QName → Prop) (Q : Reference → Prop)
    (R : Meaning → Meaning → Prop) : Prop where
  connective : ∀ decisive {l l' r r'}, R l l' → R r r' →
    R (.connective decisive l r) (.connective decisive l' r')
  comparison : ∀ op {l l' r r'}, R l l' → R r r' →
    R (.comparison i op l r) (.comparison j op l' r')
  arithmetic : ∀ op {l l' r r'}, R l l' → R r r' →
    R (.arithmetic i op l r) (.arithmetic j op l' r')
  negation : ∀ {m m'}, R m m' → R (.negation i m) (.negation j m')
  union : ∀ {l l' r r'}, R l l' → R r r' → R (.union i l r) (.union j l' r')
  call : ∀ name {ms ms'}, P name → List.Forall₂ R ms ms' → R (.call i name ms) (.call j name ms')
  number : ∀ x, R (.number x) (.number x)
  string : ∀ s, R (.ofValue fun _ => pure (.string s)) (.ofValue fun _ => pure (.string s))
  variableReference : ∀ name, Q (.variableReference name) →
    R (.variableReference i name) ((w.variableReference name).meaning j)
  path : ∀ {start start' steps steps'}, Starts R start start' →
    List.Forall₂ (w.Steps Q R) steps steps' → R (i.path start steps) (j.path start' steps')

open XPath.Expr

variable {w : Rewriting} {i j : Interpretation} {P : QName → Prop} {Q : Reference → Prop}
  {R : Meaning → Meaning → Prop}

mutual

/-- An expression is related to what it is rewritten to. -/
theorem relates_meaning (h : w.Relates i j P Q R) :
    ∀ e : Expr, (∀ name ∈ e.calls, P name) → (∀ r ∈ e.references, Q r) →
      R (e.meaning i) ((e.rewrite w).meaning j)
  | .or l r, hP, hQ => by
    rw [calls, List.forall_mem_append] at hP
    rw [references, List.forall_mem_append] at hQ
    rw [rewrite, meaning, meaning]
    exact h.connective true (relates_meaning h l hP.1 hQ.1) (relates_meaning h r hP.2 hQ.2)
  | .and l r, hP, hQ => by
    rw [calls, List.forall_mem_append] at hP
    rw [references, List.forall_mem_append] at hQ
    rw [rewrite, meaning, meaning]
    exact h.connective false (relates_meaning h l hP.1 hQ.1) (relates_meaning h r hP.2 hQ.2)
  | .compare op l r, hP, hQ => by
    rw [calls, List.forall_mem_append] at hP
    rw [references, List.forall_mem_append] at hQ
    rw [rewrite, meaning, meaning]
    exact h.comparison op (relates_meaning h l hP.1 hQ.1) (relates_meaning h r hP.2 hQ.2)
  | .arithmetic op l r, hP, hQ => by
    rw [calls, List.forall_mem_append] at hP
    rw [references, List.forall_mem_append] at hQ
    rw [rewrite, meaning, meaning]
    exact h.arithmetic op (relates_meaning h l hP.1 hQ.1) (relates_meaning h r hP.2 hQ.2)
  | .negate e, hP, hQ => by
    rw [calls] at hP
    rw [references] at hQ
    rw [rewrite, meaning, meaning]
    exact h.negation (relates_meaning h e hP hQ)
  | .union l r, hP, hQ => by
    rw [calls, List.forall_mem_append] at hP
    rw [references, List.forall_mem_append] at hQ
    rw [rewrite, meaning, meaning]
    exact h.union (relates_meaning h l hP.1 hQ.1) (relates_meaning h r hP.2 hQ.2)
  | .call name arguments, hP, hQ => by
    rw [calls, List.forall_mem_cons] at hP
    rw [references] at hQ
    rw [rewrite, meaning, meaning]
    exact h.call name hP.1 (relates_meanings h arguments hP.2 hQ)
  | .number x, _, _ => by
    rw [rewrite, meaning, meaning]
    exact h.number x
  | .string s, _, _ => by
    rw [rewrite, meaning, meaning]
    exact h.string s
  | .variableReference name, _, hQ => by
    rw [rewrite, meaning]
    exact h.variableReference name (hQ _ (by rw [references]; exact List.mem_singleton_self _))
  | .path start steps, hP, hQ => by
    rw [calls, List.forall_mem_append] at hP
    rw [references, List.forall_mem_append] at hQ
    rw [rewrite, meaning, meaning]
    exact h.path (relates_startMeaning h start hP.1 hQ.1) (relates_stepMeanings h steps hP.2 hQ.2)
termination_by structural e => e

theorem relates_meanings (h : w.Relates i j P Q R) :
    ∀ es : List Expr, (∀ name ∈ listCalls es, P name) → (∀ r ∈ listReferences es, Q r) →
      List.Forall₂ R (meanings i es) (meanings j (rewriteList w es))
  | [], _, _ => by
    rw [rewriteList, meanings, meanings]
    exact .nil
  | e :: rest, hP, hQ => by
    rw [listCalls, List.forall_mem_append] at hP
    rw [listReferences, List.forall_mem_append] at hQ
    rw [rewriteList, meanings, meanings]
    exact .cons (relates_meaning h e hP.1 hQ.1) (relates_meanings h rest hP.2 hQ.2)

theorem relates_startMeaning (h : w.Relates i j P Q R) :
    ∀ start : Start Expr, (∀ name ∈ startCalls start, P name) →
      (∀ r ∈ startReferences start, Q r) →
      Starts R (startMeaning i start) (startMeaning j (rewriteStart w start))
  | .root, _, _ => by
    rw [rewriteStart, startMeaning, startMeaning]
    exact .root
  | .context, _, _ => by
    rw [rewriteStart, startMeaning, startMeaning]
    exact .context
  | .filter primary predicates, hP, hQ => by
    rw [startCalls, List.forall_mem_append] at hP
    rw [startReferences, List.forall_mem_append] at hQ
    rw [rewriteStart, startMeaning, startMeaning]
    exact .filter (relates_meaning h primary hP.1 hQ.1) (relates_meanings h predicates hP.2 hQ.2)

theorem relates_stepMeaning (h : w.Relates i j P Q R) :
    ∀ s : Step Expr, (∀ name ∈ stepCalls s, P name) → (∀ r ∈ stepReferences s, Q r) →
      w.Steps Q R (stepMeaning i s) (stepMeaning j (rewriteStep w s))
  | ⟨_, _, predicates⟩, hP, hQ => by
    rw [stepCalls] at hP
    rw [stepReferences, List.forall_mem_cons] at hQ
    rw [rewriteStep, stepMeaning, stepMeaning]
    exact ⟨rfl, rfl, hQ.1, relates_meanings h predicates hP hQ.2⟩

theorem relates_stepMeanings (h : w.Relates i j P Q R) :
    ∀ steps : List (Step Expr), (∀ name ∈ stepsCalls steps, P name) →
      (∀ r ∈ stepsReferences steps, Q r) →
      List.Forall₂ (w.Steps Q R) (stepMeanings i steps) (stepMeanings j (rewriteSteps w steps))
  | [], _, _ => by
    rw [rewriteSteps, stepMeanings, stepMeanings]
    exact .nil
  | s :: rest, hP, hQ => by
    rw [stepsCalls, List.forall_mem_append] at hP
    rw [stepsReferences, List.forall_mem_append] at hQ
    rw [rewriteSteps, stepMeanings, stepMeanings]
    exact .cons (relates_stepMeaning h s hP.1 hQ.1) (relates_stepMeanings h rest hP.2 hQ.2)

end

/-! ### Equal meanings -/

/-- Two interpretations that differ in nothing that a rewritten expression could show, as far as it
calls functions whose names satisfy `P` and refers to what satisfies `Q`. -/
structure Keeps (w : Rewriting) (i j : Interpretation) (P : QName → Prop) (Q : Reference → Prop) :
    Prop where
  numberOf : i.numberOf = j.numberOf
  comparison : ∀ (op : Comparison) (number : Value → Eval Float),
    op.holdsWith i.setting.view number = op.holdsWith j.setting.view number
  sort : i.setting.view.sort = j.setting.view.sort
  call : ∀ name, P name → Meaning.call i name = Meaning.call j name
  variableReference : ∀ name, Q (.variableReference name) →
    Meaning.variableReference i name = (w.variableReference name).meaning j
  path : ∀ start {steps steps'}, List.Forall₂ (w.Steps Q Eq) steps steps' →
    i.path start steps = j.path start steps'

theorem Starts.eq {start start' : Start Meaning} (h : Starts Eq start start') : start = start' := by
  cases h with
  | root => rfl
  | context => rfl
  | filter h hp =>
    rw [List.forall₂_eq_eq_eq] at hp
    rw [h, hp]

/-- Equality goes through all forms of expression. -/
theorem Keeps.relates (h : w.Keeps i j P Q) : w.Relates i j P Q Eq where
  connective := by rintro decisive l _ r _ rfl rfl; rfl
  comparison := by
    rintro op l _ r _ rfl rfl
    unfold Meaning.comparison
    simp only [h.numberOf, h.comparison]
  arithmetic := by
    rintro op l _ r _ rfl rfl
    unfold Meaning.arithmetic
    rw [h.numberOf]
  negation := by
    rintro m _ rfl
    unfold Meaning.negation
    rw [h.numberOf]
  union := by
    rintro l _ r _ rfl rfl
    unfold Meaning.union NodeSet.union NodeSet.sorted
    rw [h.sort]
  call name ms ms' hname hms := by
    rw [List.forall₂_eq_eq_eq] at hms
    rw [h.call name hname, hms]
  number _ := rfl
  string _ := rfl
  variableReference := h.variableReference
  path hstart hsteps := by rw [hstart.eq, h.path _ hsteps]

/-- A rewritten expression means to the one interpretation what the expression means to the
other. -/
theorem meaning_eq (h : w.Keeps i j P Q) {e : Expr} (hP : ∀ name ∈ e.calls, P name)
    (hQ : ∀ r ∈ e.references, Q r) : (e.rewrite w).meaning j = e.meaning i :=
  (relates_meaning h.relates e hP hQ).symm

end Rewriting

/-! ### Accords -/

/-- Interpretations in accord make meanings that are in accord, if what is put in for variables is
and tests stay as they are. -/
theorem Accord.relates {ι : Type} {A : Accord ι} {i j : Interpretation}
    (h : A.Interpretations i j) {w : Rewriting} (htest : ∀ test, w.nodeTest test = test)
    (hvariable : ∀ name,
      A.Meanings (.variableReference i name) ((w.variableReference name).meaning j)) :
    w.Relates i j (fun _ => True) (fun _ => True) A.Meanings where
  connective decisive _ _ _ _ := meanings_connective decisive
  comparison op _ _ _ _ := meanings_comparison h op
  arithmetic op _ _ _ _ := meanings_arithmetic h op
  negation := meanings_negation h
  union := meanings_union h
  call name _ _ _ := meanings_call h name
  number := meanings_number
  string s := meanings_ofValue fun _ => A.pure (good_text s)
  variableReference name _ := hvariable name
  path hstart hsteps := by
    refine h.path ?_ (hsteps.imp fun s t hst => ⟨hst.axis, ?_, hst.predicates⟩)
    · cases hstart with
      | root => exact .root
      | context => exact .context
      | filter hm hp => exact .filter hm hp
    · rw [hst.test, htest]

end XPath
