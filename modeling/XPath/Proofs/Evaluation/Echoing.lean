/-
Evaluations that differ in what they log only.

Nothing that an evaluation does depends on what has been logged.  So if two predicates do the same
and differ in what they log, then all the stages of a step work alike with the one and the other,
and so do paths and expressions that have them as their parts.

* `Eval.Echoes` — actions that are the same up to the log;
* `Accord.echoing` — such actions as an accord;
* `Path.collect_echoes` — following steps;
* `Accord.interpretations_echoing` — the evaluation of the engine is in accord with itself.
-/
import XPath.Proofs.Evaluation.Concurrence

namespace XPath

/-- Actions that do the same whatever has been logged before, and may log different lines. -/
abbrev Eval.Echoes {α : Type} (x y : Eval α) : Prop :=
  x.AgreesUnless (fun _ => False) (fun s t => s.stages = t.stages) y

theorem Eval.echoes_iff {α : Type} {x y : Eval α} :
    x.Echoes y ↔ x.Concurs (fun _ _ => True) Eq y := by
  have hrelated : Stage.Related (fun _ _ => True) Eq = fun s t => s.stages = t.stages := by
    funext s t
    exact propext (and_iff_right trivial)
  rw [Concurs, hrelated]

/-- Doing the same up to the log, as an accord. -/
def Accord.echoing (σ : Setting) : Accord Unit where
  toSides := .same σ
  Holds _ _ P x y := x.Echoes y ∧ x.Ensures P
  Good _ := True
  Sized _ x y := x.Echoes y
  size h := ⟨h, Eval.ensures_true _⟩
  sized := Eval.agreesUnless_pure _
  pure h := ⟨Eval.agreesUnless_pure _, Eval.ensures_pure h⟩
  throw _ := ⟨Eval.agreesUnless_throw _, fun _ _ _ h => by cases h⟩
  bind hx hf := ⟨Eval.agreesUnless_bind hx.1 hx.2 fun a ha => (hf a ha).1,
    Eval.ensures_bind hx.2 fun a ha => (hf a ha).2⟩
  known _ _ _ := trivial
  scalar _ := trivial
  union _ _ := trivial
  identified _ := trivial

namespace Accord

variable {σ : Setting}

/-- Predicates in accord do the same among the same stages, whatever has been logged. -/
theorem concurs_of_echoing {p p' : Predicate} (h : (echoing σ).Predicates p p') :
    p.Concurs (fun _ _ => True) Eq p' := by
  cases h with
  | position x => exact .position x
  | test hj =>
    refine .test fun c d hc => Eval.echoes_iff.1 ?_
    exact (hj (k := ()) ⟨hc.node, trivial, hc.position, Eval.echoes_iff.2 hc.size⟩).1

theorem strides_of_echoing {s t : Stride} (h : (echoing σ).Strides s t) :
    s.Concurs (fun _ _ => True) t := fun n => by
  rw [← h.candidates (n := n) trivial]
  exact Candidates.visitedAlike_same (h.predicates.imp fun _ _ => concurs_of_echoing) _

end Accord

/-- Strides in accord are followed in the same way. -/
theorem Path.collect_echoes {σ : Setting} (once : Bool) {ps ps' : List Predicate}
    (hp : List.Forall₂ (Accord.echoing σ).Predicates ps ps') {strides strides' : List Stride}
    (hs : List.Forall₂ (Accord.echoing σ).Strides strides strides') (nodes : List Node) :
    (collect once nodes ps strides).Echoes (collect once nodes ps' strides') :=
  Eval.echoes_iff.2 (collect_concurs once (hs.imp fun _ _ => Accord.strides_of_echoing)
    (Candidates.visitedAlike_same (hp.imp fun _ _ => Accord.concurs_of_echoing) nodes))

/-- The evaluation of the engine is in accord with itself. -/
theorem Accord.interpretations_echoing (σ : Setting) :
    (echoing σ).Interpretations (.standard Registry.core.library σ)
      (.standard Registry.core.library σ) :=
  Follows.interpretations (A := echoing σ)
    ⟨fun _ => trivial, fun _ => trivial, fun once _ _ _ _ hp _ _ hs =>
      ⟨Path.collect_echoes once hp hs _, Eval.ensures_true _⟩⟩
    libraries_core fun _ _ => trivial

end XPath
