/-
Variables without a value.

Unless variables must have values, one without a value is an empty string, and that is all: the
evaluation is the strict one with empty strings for the variables of the expression that lack a
value.  Where the strict evaluation misses no variable, whether by its order or because some
operands are left out, it is also the same with the values that there are.

* `Expr.variables` — the variables of an expression;
* `Setting.completed` — a strict setting in which given variables have values;
* `Setting.lookup_completed` — the values that they have in it;
* `Eval.Completes` — an action that goes on where another one misses a variable;
* `Expr.completes` — evaluation does so that does not ask for values;
* `unbound_variables_are_empty` — it is strict evaluation with empty strings.
-/
import XPath.Proofs.Evaluation.PartialAgreement
import XPath.Proofs.Evaluation.SameNodes
import XPath.Tree.Sample

namespace XPath

/-! ### Variables -/

/-- The variable that is referred to, if it is one. -/
def Reference.variable? : Reference → Option String
  | .variableReference name => some name
  | .nodeTest _ => none

/-- The variables of an expression. -/
def Expr.variables (e : Expr) : List String := e.references.filterMap Reference.variable?

namespace Setting

variable (σ : Setting) (names : List String)

/-- A setting in which variables must have values, and the given ones that had none are empty
strings. -/
def completed : Setting :=
  { σ with
    bindings := (names.filter fun name => (σ.bindings.lookup name).isNone).map (·, .string "") ++
      σ.bindings
    strict := true }

/-- A variable that is given has the value that it had, or is an empty string. -/
theorem lookup_completed {name : String} (h : name ∈ names) :
    (σ.completed names).bindings.lookup name =
      some ((σ.bindings.lookup name).getD (.string "")) := by
  have hmap : ∀ xs : List String, (xs.map fun x => (x, Value.string "")).lookup name =
      if name ∈ xs then some (.string "") else none := by
    intro xs
    induction xs with
    | nil => rfl
    | cons x rest ih =>
      rw [List.map_cons, List.lookup_cons, ih]
      by_cases hx : name = x
      · simp [hx]
      · simp [hx, beq_false_of_ne hx]
  unfold completed
  rw [List.lookup_append, hmap]
  cases hvalue : σ.bindings.lookup name with
  | none => simp [h, hvalue]
  | some v => simp [hvalue]

end Setting

namespace Meaning

variable {i : Interpretation} {name : String}

/-- A variable with a value has that value. -/
theorem variableReference_of_some {v : Value} (h : i.setting.bindings.lookup name = some v) :
    variableReference i name = .ofValue fun _ => pure v := by
  unfold variableReference
  rw [h]

/-- A variable without a value is missed or empty. -/
theorem variableReference_of_none (h : i.setting.bindings.lookup name = none) :
    variableReference i name = .ofValue fun _ =>
      if i.setting.strict then throw (.unknownVariable name) else pure (.string "") := by
  unfold variableReference
  rw [h]

end Meaning

/-! ### Missing variables -/

/-- The errors that variables without a value lead to. -/
def Error.MissesVariable (e : Error) : Prop := ∃ name, e = .unknownVariable name

/-- An action that does what another one does, except where that misses a variable. -/
def Eval.Completes {α : Type} (y x : Eval α) : Prop :=
  ∀ s, (∃ e t, x s = .error e t ∧ e.MissesVariable) ∨ y s = x s

namespace Eval

variable {α β : Type}

theorem completes_refl (x : Eval α) : x.Completes x := fun _ => .inr rfl

theorem Completes.bind {x y : Eval α} {f g : α → Eval β} (h : y.Completes x)
    (hf : ∀ a, (g a).Completes (f a)) : Completes (y >>= g) (x >>= f) := by
  intro s
  show (∃ e t, EStateM.bind x f s = _ ∧ _) ∨ EStateM.bind y g s = EStateM.bind x f s
  rw [EStateM.bind, EStateM.bind]
  rcases h s with ⟨e, t, he, hmissed⟩ | h
  · rw [he]
    exact .inl ⟨e, t, rfl, hmissed⟩
  · rw [h]
    cases x s with
    | error e t => exact .inr rfl
    | ok a t => exact hf a t

/-- An action that agrees with another one, unless this misses a variable, completes it. -/
theorem completes_of_agreesUnless {x y : Eval α} (h : x.AgreesUnless Error.MissesVariable Eq y) :
    y.Completes x := by
  intro s
  have hs := h s s rfl
  generalize hx : x s = r at hs
  generalize hy : y s = r' at hs
  cases hs with
  | ok h => exact .inr (by rw [h])
  | error h => exact .inr (by rw [h])
  | lost h => exact .inl ⟨_, _, rfl, h⟩

end Eval

section Lenient

variable (σ : Setting) (e : Expr)

/-- The evaluator for which variables must have values. -/
abbrev Interpretation.strict : Interpretation :=
  .standard Registry.core.library { σ with strict := true }

/-- The evaluator for which variables without a value are empty. -/
abbrev Interpretation.lenient : Interpretation :=
  .standard Registry.core.library { σ with strict := false }

/-- Puts in an empty string for every variable without a value. -/
def Rewriting.filling : Rewriting where
  nodeTest := id
  variableReference name :=
    if (σ.bindings.lookup name).isSome then .variableReference name else .string ""

/-- Strict evaluation with empty strings put in for variables is the lenient one. -/
theorem Expr.meaning_filling :
    (e.rewrite (.filling σ)).meaning (.strict σ) = e.meaning (.lenient σ) := by
  have same : Setting.SameNodes { σ with strict := false } { σ with strict := true } :=
    ⟨rfl, rfl, rfl⟩
  refine Rewriting.meaning_eq (P := fun _ => True) (Q := fun _ => True)
    (Rewriting.keeps_core (w := .filling σ) same (fun _ _ => rfl) (fun name _ => ?_)
      (fun _ _ _ => rfl) fun _ _ _ _ _ _ => rfl) (fun _ _ => trivial) fun _ _ => trivial
  unfold Rewriting.filling
  dsimp only
  cases h : σ.bindings.lookup name with
  | none =>
    rw [Meaning.variableReference_of_none h]
    rfl
  | some v =>
    rw [Meaning.variableReference_of_some h, Option.isSome_some, if_pos rfl, Expr.meaning,
      Meaning.variableReference_of_some h]

/-- Strict evaluation with the missing variables bound to empty strings is the lenient one. -/
theorem Expr.meaning_completed :
    e.meaning (.standard Registry.core.library (σ.completed e.variables)) =
      e.meaning (.lenient σ) := by
  have same : Setting.SameNodes { σ with strict := false } (σ.completed e.variables) :=
    ⟨rfl, rfl, rfl⟩
  have h := Rewriting.meaning_eq (e := e) (P := fun _ => True)
    (Q := fun reference => ∀ name ∈ reference.variable?, name ∈ e.variables)
    (Rewriting.keeps_core (w := .refl) same (fun _ _ => rfl) (fun name hname => ?_)
      (fun _ _ _ => rfl) fun _ _ _ _ _ _ => rfl) (fun _ _ => trivial)
    fun reference hr name hname => List.mem_filterMap.2 ⟨reference, hr, hname⟩
  · rwa [Expr.rewrite_refl] at h
  · show Meaning.variableReference (.lenient σ) name =
      (Expr.variableReference name).meaning (.standard _ (σ.completed e.variables))
    have hcompleted := σ.lookup_completed e.variables (hname name rfl)
    rw [Expr.meaning, Meaning.variableReference_of_some
      (i := .standard Registry.core.library (σ.completed e.variables)) hcompleted]
    cases h : σ.bindings.lookup name with
    | none => exact Meaning.variableReference_of_none h
    | some v => exact Meaning.variableReference_of_some h

/-- Where strict evaluation misses no variable, the lenient one is the same. -/
theorem Expr.completes (c : Context) :
    ((e.meaning (.lenient σ)).value c).Completes ((e.meaning (.strict σ)).value c) ∧
      ((e.meaning (.lenient σ)).truth c).Completes ((e.meaning (.strict σ)).truth c) := by
  let A := Accord.partialAgreement { σ with strict := true } Error.MissesVariable
  have hvariable : ∀ name, A.Meanings (.variableReference (.strict σ) name)
      (((Rewriting.filling σ).variableReference name).meaning (.strict σ)) := by
    intro name
    unfold Rewriting.filling
    dsimp only
    cases h : σ.bindings.lookup name with
    | some v =>
      rw [Option.isSome_some, if_pos rfl, Expr.meaning]
      exact Accord.meanings_variableReference (Accord.interpretations_partialAgreement _ _) name
    | none =>
      rw [Option.isSome_none, if_neg (by simp), Expr.meaning, Meaning.variableReference_of_none h]
      refine Accord.meanings_ofValue fun {k c d} _ => ?_
      exact ⟨Eval.agreesUnless_lost ⟨name, rfl⟩ _, fun _ => ⟨fun _ => rfl, fun _ => rfl⟩,
        fun _ _ _ h => (by cases h), Eval.ensures_pure trivial⟩
  have hm := Rewriting.relates_meaning
    (Accord.relates (Accord.interpretations_partialAgreement _ _) (fun _ => rfl) hvariable) e
    (fun _ _ => trivial) fun _ _ => trivial
  rw [Expr.meaning_filling] at hm
  have hc : A.Contexts ⟨Eq, False⟩ c c := ⟨rfl, trivial, rfl, Eval.agreesUnless_refl _, False.elim,
    Eval.ensures_true _, Eval.ensures_true _⟩
  exact ⟨Eval.completes_of_agreesUnless (hm.value hc).agrees,
    Eval.completes_of_agreesUnless (hm.truth hc).agrees⟩

/-- So are the results of any kind. -/
theorem Shape.completes (n : Node) (shape : Shape) :
    (shape.evaluate (.lenient σ) e n).Completes (shape.evaluate (.strict σ) e n) := by
  obtain ⟨hvalue, htruth⟩ := e.completes σ (.alone n)
  have hnumberOf : (Interpretation.strict σ).numberOf = (Interpretation.lenient σ).numberOf :=
    Registry.numberOf_core_eq ⟨rfl, rfl, rfl⟩
  unfold Shape.evaluate
  rw [hnumberOf]
  cases shape with
  | any => exact hvalue
  | string => exact hvalue.bind fun _ => Eval.completes_refl _
  | number => exact hvalue.bind fun _ => Eval.completes_refl _
  | boolean => exact htruth.bind fun _ => Eval.completes_refl _
  | nodeSet => exact hvalue.bind fun _ => Eval.completes_refl _
  | ordered => exact hvalue.bind fun _ => Eval.completes_refl _
  | first => exact hvalue.bind fun _ => Eval.completes_refl _

/-- Unless variables must have values, evaluation is the one for which they must, with an empty
string for each variable of the expression that has no value.  In every context and for results of
any kind, it also does what strict evaluation does with the values that there are, wherever that
does not fail because of a variable. -/
theorem unbound_variables_are_empty :
    (e.meaning (.lenient σ) =
      e.meaning (.standard Registry.core.library (σ.completed e.variables)) ∧
    ∀ (n : Node) (shape : Shape), shape.evaluate (.lenient σ) e n =
      shape.evaluate (.standard Registry.core.library (σ.completed e.variables)) e n) ∧
    (∀ c : Context,
      ((e.meaning (.lenient σ)).value c).Completes ((e.meaning (.strict σ)).value c) ∧
      ((e.meaning (.lenient σ)).truth c).Completes ((e.meaning (.strict σ)).truth c)) ∧
    ∀ (n : Node) (shape : Shape),
      (shape.evaluate (.lenient σ) e n).Completes (shape.evaluate (.strict σ) e n) := by
  have hcompleted := e.meaning_completed σ
  refine ⟨⟨hcompleted.symm, fun n shape => ?_⟩, e.completes σ, Shape.completes σ e⟩
  unfold Shape.evaluate
  rw [hcompleted]
  rfl

end Lenient

end XPath
