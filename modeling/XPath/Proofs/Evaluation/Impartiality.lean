/-
Evaluations that do the same wherever they take place.

The stages around an expression matter to it only through the size of its context.  So if an
evaluation starts on two sides from related logs, among stages that are related in some way, and if
the size ends alike on both sides and keeps them related, then so does the evaluation: it has the
same result or the same error, and leaves related logs and stages.

* `Accord.impartiality` — ending alike, whatever the stages are, as an accord;
* `Log.Agree` — logs with the same lines of some kind;
* `Library.Impartial`, `Accord.interpretations_impartiality` — a library of functions that pass this
  on, and the evaluation of the engine with it;
* `Expr.impartial_predicate`, `Expr.impartial_stepMeanings` — expressions as predicates end alike
  wherever they stand.
-/
import XPath.Proofs.Evaluation.Concurrence
import XPath.Proofs.Library.Accord

namespace XPath

variable {R : List String → List String → Prop} {σ : Setting}

/-! ### The accord -/

/-- The accord of impartiality.  Actions are compared as they end from related logs and from stages
that are related in a given way. -/
def Accord.impartiality (σ : Setting) (R : List String → List String → Prop) :
    Accord (List Stage → List Stage → Prop) where
  toSides := .same σ
  Holds T _ P x y := x.Concurs R T y ∧ x.Ensures P
  Good _ := True
  Sized T x y := x.Concurs R T y
  size h := ⟨h, Eval.ensures_true _⟩
  sized := Eval.agreesUnless_pure _
  pure h := ⟨Eval.agreesUnless_pure _, Eval.ensures_pure h⟩
  throw _ := ⟨Eval.agreesUnless_throw _, fun _ _ _ h => by cases h⟩
  bind hx hf := ⟨Eval.agreesUnless_bind hx.1 hx.2 fun a ha => (hf a ha).1,
    Eval.ensures_bind hx.2 fun a ha => (hf a ha).2⟩
  known _ _ _ := trivial
  scalar _ := trivial
  union _ _ := trivial
  identified _ := trivial

namespace Accord

/-- Predicates in accord do the same among stages that are related in any way. -/
theorem concurs_of_impartiality {p p' : Predicate} (h : (impartiality σ R).Predicates p p')
    (T : List Stage → List Stage → Prop) : p.Concurs R T p' := by
  cases h with
  | position x => exact .position x
  | test hj => exact .test fun c d hc => (hj ⟨hc.node, trivial, hc.position, hc.size⟩).1

theorem strides_of_impartiality {s t : Stride} (h : (impartiality σ R).Strides s t) :
    s.Concurs R t := fun n => by
  rw [← h.candidates (n := n) trivial]
  exact Candidates.visitedAlike_same
    (h.predicates.imp fun _ _ hp => concurs_of_impartiality hp Eq) _

/-- Following steps does not depend on the stages around the path. -/
theorem follows_impartiality : (impartiality σ R).Follows where
  single _ := trivial
  sorted _ := trivial
  collect once nodes _ _ _ hp _ _ hs :=
    ⟨Path.collect_concurs once (hs.imp fun _ _ => strides_of_impartiality)
      (Candidates.visitedAlike_same (hp.imp fun _ _ h => concurs_of_impartiality h Eq) nodes),
      Eval.ensures_true _⟩

end Accord

/-! ### Libraries -/

/-- Logs with the same lines among those that one looks at. -/
def Log.Agree (seen : String → Bool) (l l' : List String) : Prop := l.filter seen = l'.filter seen

/-- A library of functions that end alike if their arguments, their conversions and the sizes of
their contexts do.  Of what is logged, only certain lines are looked at. -/
def Library.Impartial (seen : String → Bool) (σ : Setting) (L : Library) : Prop :=
  (Accord.impartiality σ (Log.Agree seen)).Libraries L L

theorem Log.agree_equivalence (seen : String → Bool) : Equivalence (Log.Agree seen) :=
  ⟨fun _ => rfl, Eq.symm, Eq.trans⟩

theorem Registry.impartial_core (seen : String → Bool) (σ : Setting) :
    core.library.Impartial seen σ := Accord.libraries_core

variable {seen : String → Bool} {L : Library} (h : L.Impartial seen σ)

include h

/-- The evaluation of the engine, with an impartial library, is in accord with itself. -/
theorem Accord.interpretations_impartiality :
    (impartiality σ (Log.Agree seen)).Interpretations (.standard L σ) (.standard L σ) :=
  Follows.interpretations follows_impartiality h fun _ _ => trivial

theorem Expr.impartial_predicate (e : Expr) :
    (e.meaning (.standard L σ)).predicate.Impartial (Log.Agree seen) :=
  Accord.concurs_of_impartiality
    (Accord.meanings_meaning (Accord.interpretations_impartiality h) e).predicate

theorem Expr.impartial_predicates (es : List Expr) :
    ∀ m ∈ Expr.meanings (.standard L σ) es, m.predicate.Impartial (Log.Agree seen) := fun m hm =>
  Accord.concurs_of_impartiality (List.forall₂_same.1
    (Accord.meanings_meanings (Accord.interpretations_impartiality h) es) m hm).predicate

theorem Expr.impartial_stepMeanings (steps : List (Step Expr)) :
    ∀ s ∈ Expr.stepMeanings (.standard L σ) steps, ∀ m ∈ s.predicates,
      m.predicate.Impartial (Log.Agree seen) := fun s hs m hm =>
  have hstep := List.forall₂_same.1
    (Accord.steps_stepMeanings (Accord.interpretations_impartiality h) steps) s hs
  Accord.concurs_of_impartiality (List.forall₂_same.1 hstep.predicates m hm).predicate

end XPath
