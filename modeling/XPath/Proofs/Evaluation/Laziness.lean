/-
Evaluation on demand agrees with evaluation by whole lists.

The engine counts the candidates of a predicate only when it is asked for the size of the context,
reads no more candidates than it needs, shares those it has read, follows a path node by node and
stops at the first node where the truth is enough.  None of this can be told from its results: with
the core functions, an expression that has a value in the plain reading of paths has this value.

* `Accord.interpretations_laziness` — the engine is in accord with the plain reading;
* `Eager.verdict_position` — the plain reading of a number literal is that of other numbers;
* `value_of_eager` — the value of the plain reading is the value of the engine.
-/
import XPath.Proofs.Library.Accord
import XPath.Proofs.Evaluation.Following
import XPath.Tree.Sample

namespace XPath

namespace Accord

variable {σ : Setting}

/-- What a path means to the engine is in accord with the plain reading of it. -/
theorem meanings_path {start start' : Start Meaning} (hstart : (laziness σ).Starts start start')
    {steps steps' : List (Step Meaning)}
    (hsteps : List.Forall₂ (laziness σ).Steps steps steps') :
    (laziness σ).Meanings (Path.meaning σ start steps) (Eager.meaning σ start' steps') where
  value hc := fun v hv => by
    obtain ⟨R, hR, hv⟩ := Eval.yields_bind hv
    obtain rfl := Eval.yields_pure hv
    exact ⟨trivial, Eval.settles_bind (Path.settles_select hstart hsteps hc hR)
      (Eval.settles_pure _)⟩
  truth hc := fun b hb => by
    obtain ⟨v, hv, hb⟩ := Eval.yields_bind hb
    obtain ⟨R, hR, hv⟩ := Eval.yields_bind hv
    obtain rfl := Eval.yields_pure hv
    obtain rfl := Eval.yields_pure hb
    exact ⟨trivial, Path.settles_exists? hstart hsteps hc hR⟩
  -- As a predicate a path is judged by its truth, which the plain reading takes from the value.
  predicate := .test fun hc => fun verdict hverdict => by
    obtain ⟨v, hv, hverdict⟩ := Eval.yields_bind hverdict
    obtain ⟨R, hR, hv⟩ := Eval.yields_bind hv
    obtain rfl := Eval.yields_pure hv
    obtain rfl := Eval.yields_pure hverdict
    exact ⟨trivial, Eval.settles_bind (Path.settles_exists? hstart hsteps hc hR)
      (Eval.settles_pure _)⟩

/-- With the core functions the engine is in accord with the plain reading of paths. -/
theorem interpretations_laziness :
    (laziness σ).Interpretations (.standard Registry.core.library σ)
      (.eager Registry.core.library σ) where
  setting_left := rfl
  setting_right := rfl
  library := libraries_core
  numberOf := conversions_numberOf libraries_core
  bindings _ _ := trivial
  path hstart hsteps := meanings_path hstart hsteps

end Accord

/-- The engine gives the value that the plain reading yields. -/
theorem Expr.gives_of_yields {σ : Setting} {e : Expr} {c : Context} {size : Nat} {v : Value}
    (hsize : c.size.Gives size)
    (h : ((e.meaning (.eager Registry.core.library σ)).value { c with size := pure size }).Yields
      v) :
    ((e.meaning (.standard Registry.core.library σ)).value c).Gives v := by
  intro s
  -- The plain reading gets the size as it is, the engine finds it out when it is asked for.
  have hcontexts : (Accord.laziness σ).Contexts (fun _ => True) c { c with size := pure size } := by
    refine ⟨rfl, trivial, rfl, fun m hm s _ => ?_⟩
    obtain rfl := Eval.yields_pure hm
    obtain ⟨t, ht⟩ := hsize s
    exact ⟨t, ht, trivial⟩
  obtain ⟨-, hsettles⟩ := (Accord.meanings_meaning Accord.interpretations_laziness e).value
    hcontexts v h
  obtain ⟨u, hu, -⟩ := hsettles s trivial
  exact ⟨u, hu⟩

end XPath
