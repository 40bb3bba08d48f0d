/-
What an expression depends on.

The meaning of an expression depends on a library only through the functions that the expression
calls, in its predicates and arguments as well.  So interpretations that differ in other functions
give it the same meaning.

* `Expr.calls` — the names of the functions that an expression calls;
* `Interpretation.AgreeOn` — interpretations that differ in other functions at most;
* `Meaning.call_congr` — calls of functions that do the same;
* `Expr.meaning_congr` — interpretations that agree give an expression the same meaning;
* `Shape.evaluate_congr` — and so the same results of any kind.
-/
import XPath.Query.Shape

namespace XPath

namespace Expr

mutual

/-- The names of the functions that an expression calls. -/
def calls : Expr → List QName
  | .or l r => calls l ++ calls r
  | .and l r => calls l ++ calls r
  | .compare _ l r => calls l ++ calls r
  | .arithmetic _ l r => calls l ++ calls r
  | .negate e => calls e
  | .union l r => calls l ++ calls r
  | .call name arguments => name :: listCalls arguments
  | .number _ => []
  | .string _ => []
  | .variableReference _ => []
  | .path start steps => startCalls start ++ stepsCalls steps
termination_by structural e => e

def listCalls : List Expr → List QName
  | [] => []
  | e :: rest => calls e ++ listCalls rest

def startCalls : Start Expr → List QName
  | .root => []
  | .context => []
  | .filter primary predicates => calls primary ++ listCalls predicates

def stepCalls : Step Expr → List QName
  | ⟨_, _, predicates⟩ => listCalls predicates

def stepsCalls : List (Step Expr) → List QName
  | [] => []
  | s :: rest => stepCalls s ++ stepsCalls rest

end

end Expr

/-- Two interpretations that differ at most in functions whose names do not satisfy `P`. -/
structure Interpretation.AgreeOn (P : QName → Prop) (i j : Interpretation) : Prop where
  setting : i.setting = j.setting
  numberOf : i.numberOf = j.numberOf
  path : i.path = j.path
  call : ∀ name, P name → Meaning.call i name = Meaning.call j name

/-- Calls are the same if the functions do the same with them. -/
theorem Meaning.call_congr {i j : Interpretation} (hnumberOf : i.numberOf = j.numberOf)
    (hsetting : i.setting = j.setting) {name : QName}
    (h : ∀ (c : Context) (arguments : List Argument),
      (i.library name i.setting c).map (· ⟨i.setting, c, arguments, i.numberOf⟩) =
        (j.library name i.setting c).map (· ⟨i.setting, c, arguments, i.numberOf⟩)) :
    Meaning.call i name = Meaning.call j name := by
  funext arguments
  unfold Meaning.call
  rw [← hsetting, ← hnumberOf]
  refine congrArg Meaning.ofValue (funext fun c => ?_)
  have hc := h c (arguments.map (·.toArgument))
  cases hi : i.library name i.setting c with
  | none =>
    rw [hi] at hc
    rw [Option.map_eq_none_iff.1 hc.symm]
  | some f =>
    rw [hi] at hc
    obtain ⟨g, hj, hg⟩ := Option.map_eq_some_iff.1 hc.symm
    rw [hj]
    exact hg.symm

namespace Interpretation.AgreeOn

variable {P : QName → Prop} {i j : Interpretation} (h : i.AgreeOn P j)

include h

theorem comparison_eq : Meaning.comparison i = Meaning.comparison j := by
  unfold Meaning.comparison
  rw [h.setting, h.numberOf]

theorem arithmetic_eq : Meaning.arithmetic i = Meaning.arithmetic j := by
  unfold Meaning.arithmetic
  rw [h.numberOf]

theorem negation_eq : Meaning.negation i = Meaning.negation j := by
  unfold Meaning.negation
  rw [h.numberOf]

theorem union_eq : Meaning.union i = Meaning.union j := by
  unfold Meaning.union
  rw [h.setting]

theorem variableReference_eq : Meaning.variableReference i = Meaning.variableReference j := by
  unfold Meaning.variableReference
  rw [h.setting]

end Interpretation.AgreeOn

namespace Expr

variable {P : QName → Prop} {i j : Interpretation}

mutual

/-- Interpretations that agree on the functions that an expression calls give it the same
meaning. -/
theorem meaning_congr (h : i.AgreeOn P j) :
    ∀ e : Expr, (∀ name ∈ e.calls, P name) → e.meaning i = e.meaning j
  | .or l r, hP => by
    rw [calls, List.forall_mem_append] at hP
    rw [meaning, meaning, meaning_congr h l hP.1, meaning_congr h r hP.2]
  | .and l r, hP => by
    rw [calls, List.forall_mem_append] at hP
    rw [meaning, meaning, meaning_congr h l hP.1, meaning_congr h r hP.2]
  | .compare op l r, hP => by
    rw [calls, List.forall_mem_append] at hP
    rw [meaning, meaning, meaning_congr h l hP.1, meaning_congr h r hP.2, h.comparison_eq]
  | .arithmetic op l r, hP => by
    rw [calls, List.forall_mem_append] at hP
    rw [meaning, meaning, meaning_congr h l hP.1, meaning_congr h r hP.2, h.arithmetic_eq]
  | .negate e, hP => by
    rw [calls] at hP
    rw [meaning, meaning, meaning_congr h e hP, h.negation_eq]
  | .union l r, hP => by
    rw [calls, List.forall_mem_append] at hP
    rw [meaning, meaning, meaning_congr h l hP.1, meaning_congr h r hP.2, h.union_eq]
  | .call name arguments, hP => by
    rw [calls, List.forall_mem_cons] at hP
    rw [meaning, meaning, meanings_congr h arguments hP.2, h.call name hP.1]
  | .number x, _ => by rw [meaning, meaning]
  | .string s, _ => by rw [meaning, meaning]
  | .variableReference name, _ => by rw [meaning, meaning, h.variableReference_eq]
  | .path start steps, hP => by
    rw [calls, List.forall_mem_append] at hP
    rw [meaning, meaning, startMeaning_congr h start hP.1, stepMeanings_congr h steps hP.2, h.path]
termination_by structural e => e

theorem meanings_congr (h : i.AgreeOn P j) :
    ∀ es : List Expr, (∀ name ∈ listCalls es, P name) → meanings i es = meanings j es
  | [], _ => by rw [meanings, meanings]
  | e :: rest, hP => by
    rw [listCalls, List.forall_mem_append] at hP
    rw [meanings, meanings, meaning_congr h e hP.1, meanings_congr h rest hP.2]

theorem startMeaning_congr (h : i.AgreeOn P j) : ∀ start : Start Expr,
    (∀ name ∈ startCalls start, P name) → startMeaning i start = startMeaning j start
  | .root, _ => by rw [startMeaning, startMeaning]
  | .context, _ => by rw [startMeaning, startMeaning]
  | .filter primary predicates, hP => by
    rw [startCalls, List.forall_mem_append] at hP
    rw [startMeaning, startMeaning, meaning_congr h primary hP.1, meanings_congr h predicates hP.2]

theorem stepMeaning_congr (h : i.AgreeOn P j) : ∀ step : Step Expr,
    (∀ name ∈ stepCalls step, P name) → stepMeaning i step = stepMeaning j step
  | ⟨axis, test, predicates⟩, hP => by
    rw [stepCalls] at hP
    rw [stepMeaning, stepMeaning, meanings_congr h predicates hP]

theorem stepMeanings_congr (h : i.AgreeOn P j) : ∀ steps : List (Step Expr),
    (∀ name ∈ stepsCalls steps, P name) → stepMeanings i steps = stepMeanings j steps
  | [], _ => by rw [stepMeanings, stepMeanings]
  | s :: rest, hP => by
    rw [stepsCalls, List.forall_mem_append] at hP
    rw [stepMeanings, stepMeanings, stepMeaning_congr h s hP.1, stepMeanings_congr h rest hP.2]

end

end Expr

/-- Interpretations that agree on the functions that an expression calls give the same results of
every kind. -/
theorem Shape.evaluate_congr {P : QName → Prop} {i j : Interpretation} (h : i.AgreeOn P j)
    {e : Expr} (hP : ∀ name ∈ e.calls, P name) (n : Node) (shape : Shape) :
    shape.evaluate i e n = shape.evaluate j e n := by
  unfold Shape.evaluate
  rw [e.meaning_congr h hP, h.setting, h.numberOf]

end XPath
