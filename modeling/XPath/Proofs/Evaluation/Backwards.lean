/-
Steps that count backwards.

The axes `preceding` and `precedingSibling` start at the node next before the one that a step is
taken from, and predicates count from there.  Several nodes have much of what is before them in
common.  So a step on such an axis has its candidates counted from each node separately, and what
is left from all of them is put into document order only when everything is there.

* `Stride.candidates_sublist` — the candidates of a step are on its axis, in their order;
* `Stride.Restores` — what such a step selects from several nodes;
* `Step.restores_of_advanced` — it does so from the nodes of a well-formed tree;
* `Expr.unique_among` — evaluations that stay in a tree;
* `reverse_step_restores` — a path whose last step is on such an axis.
-/
import XPath.Proofs.Evaluation.Levels
import XPath.Proofs.Tree.Ranking

namespace XPath

/-- The candidates of a step are nodes on its axis, in their order. -/
theorem Stride.candidates_sublist {σ : Setting} {step : Step Meaning} {stride : Stride}
    (h : ofStep σ step = .ok stride) (n : Node) :
    (stride.candidates n).Sublist (σ.view.walk step.axis n σ.root) := by
  unfold ofStep at h
  cases hu : step.test.uri step.axis σ.namespaces with
  | error e =>
    rw [hu] at h
    cases h
  | ok uri =>
    rw [hu] at h
    cases h
    exact List.filter_sublist

/-- A step leads from nodes of a tree to nodes of the tree. -/
theorem Stride.hasAt_leads {f : Forest} {k : Nat} {t : Tree} (ht : f[k]? = some t)
    (hwf : t.WellFormed) {σ : Setting} (hview : f.Shows t σ.view) {step : Step Meaning}
    {stride : Stride} (h : ofStep σ step = .ok stride) {n m : Node} (hn : t.HasAt k n)
    (hm : m ∈ stride.leads n) : t.HasAt k m := by
  have hcandidate : m ∈ stride.candidates n := (Supply.sublist_of _ _).subset hm
  exact hview.hasAt_walk ht hwf hn ((candidates_sublist h n).subset hcandidate)

/-- What a step that counts backwards selects from several nodes. -/
structure Stride.Restores (v : View) (stride : Stride) (inputs found : List Node) : Prop where
  /-- The candidates go back from each node, so that the nearest one is at position 1. -/
  nearest : ∀ n ∈ inputs, (n :: stride.candidates n).Pairwise fun a b => v.order a b = .gt
  /-- No predicate fails on the candidates from any node before it is known what it leaves. -/
  complete : ∀ n ∈ inputs, (stride.supply n).complete = true
  /-- What the predicates leave is what the plain reading of them yields, if it does not fail. -/
  survivors : ∀ n ∈ inputs, ∀ K,
    (Eager.survivors stride.predicates.reverse (stride.candidates n)).Yields K → stride.leads n = K
  /-- What is selected is what is left from some node. -/
  mem_iff : ∀ m, m ∈ found ↔ ∃ n ∈ inputs, m ∈ stride.leads n
  ordered : found.Pairwise fun a b => v.order a b = .lt
  nodup : found.Nodup

/-- A step on an axis whose order is restored, from nodes of a well-formed tree. -/
theorem Step.restores_of_advanced {f : Forest} {k : Nat} {t : Tree} (ht : f[k]? = some t)
    (hwf : t.WellFormed) {σ : Setting} (hview : f.Shows t σ.view) {step : Step Meaning}
    (haxis : step.axis.restoresOrder = true) (hsteady : ∀ m ∈ step.predicates, m.predicate.Steady)
    {inputs found : List Node} (hinputs : ∀ n ∈ inputs, t.HasAt k n)
    (h : step.advanced σ inputs = some found) :
    ∃ stride, Stride.ofStep σ step = .ok stride ∧ stride.Restores σ.view inputs found := by
  unfold Step.advanced at h
  cases hready : Stride.ofStep σ step with
  | error e =>
    rw [hready] at h
    cases h
  | ok stride =>
    rw [hready] at h
    obtain ⟨all, hall, rfl⟩ := Option.map_eq_some_iff.1 h
    obtain ⟨hcomplete, rfl⟩ := Stride.advanced_eq_some_iff.1 hall
    set all := firstOccurrences (inputs.flatMap stride.leads) with hdef
    rw [Axis.arranged, if_pos haxis]
    have hmem : ∀ m, m ∈ all ↔ ∃ n ∈ inputs, m ∈ stride.leads n := fun m => by
      rw [hdef, mem_firstOccurrences, List.mem_flatMap]
    have hnodup : all.Nodup := nodup_firstOccurrences _
    have hknown : ∀ m ∈ all, t.HasAt k m := by
      intro m hm
      obtain ⟨n, hn, hm⟩ := (hmem m).1 hm
      exact Stride.hasAt_leads ht hwf hview hready (hinputs n hn) hm
    have hperm := σ.view.sort_perm all
    refine ⟨stride, rfl, fun n hn => ?_, hcomplete, fun n _ K hK => ?_,
      fun m => hperm.mem_iff.trans (hmem m),
      (hview.ranks ht hwf).pairwise_sort hknown hnodup, hperm.nodup_iff.2 hnodup⟩
    · exact (hview.pairwise_walk ht hwf haxis (hinputs n hn) σ.root).sublist
        ((Stride.candidates_sublist hready n).cons_cons n)
    · have hpredicates : ∀ p ∈ stride.predicates, p.Steady := by
        rw [Stride.predicates_ofStep hready]
        exact Meaning.forall_reverse hsteady
      exact congrArg Supply.nodes (Supply.of_eq_of_survivors hpredicates hK)

/-! ### Paths -/

/-- With the core functions, an evaluation that starts in a tree comes to nodes of the tree, none of
them twice. -/
theorem Expr.unique_among {f : Forest} {k : Nat} {t : Tree} (ht : f[k]? = some t)
    (hwf : t.WellFormed) {σ : Setting} (hview : f.Shows t σ.view) (hσ : σ.Within t k) (e : Expr)
    {c : Context} (hc : t.HasAt k c.node) {s u : State} {v : Value}
    (h : (e.meaning (.standard Registry.core.library σ)).value c s = .ok v u) :
    v.Unique ∧ v.Among (t.HasAt k) := by
  have hshared : σ.Shared σ.view (t.HasAt k) := hσ.shared ht hwf hview hview
  have hleads := ((agree hshared e).value (Accord.contexts_agreement hshared hc) s trivial).2
  rw [h] at hleads
  exact hleads.1

/-- With the core functions, an evaluation that starts in a tree comes to nodes of the tree. -/
theorem Expr.among {f : Forest} {k : Nat} {t : Tree} (ht : f[k]? = some t) (hwf : t.WellFormed)
    {σ : Setting} (hview : f.Shows t σ.view) (hσ : σ.Within t k) (e : Expr) {c : Context}
    (hc : t.HasAt k c.node) {s u : State} {v : Value}
    (h : (e.meaning (.standard Registry.core.library σ)).value c s = .ok v u) :
    v.Among (t.HasAt k) :=
  (unique_among ht hwf hview hσ e hc h).2

/-- A step on `preceding` or `precedingSibling` counts backwards and answers forwards.  If a path
with such a last step succeeds, it selects, from the nodes of a well-formed tree that the path
selects without this step, what is left from any of them of the candidates counted back from there:
strictly in document order, and no node twice. -/
theorem reverse_step_restores {f : Forest} {k : Nat} {t : Tree} (ht : f[k]? = some t)
    (hwf : t.WellFormed) {L : Library} {σ : Setting} (hL : L.Steady σ) (hview : f.Shows t σ.view)
    {c : Context} {I : List Stage → Prop} {size? : Option Nat} (hc : c.size.Comes I size?)
    {s : State} (hs : I s.stages) {start : Start Expr} {before : List (Step Expr)}
    {last : Step Expr} (haxis : last.axis = .preceding ∨ last.axis = .precedingSibling)
    (hinputs : ∀ inputs u,
      ((Expr.path start before).meaning (.standard L σ)).value c s = .ok (.nodeSet ⟨inputs⟩) u →
        ∀ n ∈ inputs, t.HasAt k n)
    {v : Value} {u : State}
    (h : ((Expr.path start (before ++ [last])).meaning (.standard L σ)).value c s = .ok v u) :
    ∃ inputs found stride,
      (∃ w, ((Expr.path start before).meaning (.standard L σ)).value c s =
        .ok (.nodeSet ⟨inputs⟩) w) ∧
      Stride.ofStep σ (Expr.stepMeaning (.standard L σ) last) = .ok stride ∧
      v = .nodeSet ⟨found⟩ ∧ stride.Restores σ.view inputs found := by
  obtain ⟨inputs, found, ⟨w, hw⟩, hadvanced, rfl⟩ :=
    (Expr.value_append_singleton hL hc hs).1 ⟨u, h⟩
  have hrestores : (Expr.stepMeaning (.standard L σ) last).axis.restoresOrder = true := by
    rw [Expr.stepMeaning]
    rcases haxis with haxis | haxis <;> rw [haxis] <;> rfl
  have hsteady := Expr.steady_stepMeanings hL [last] _ (List.mem_singleton_self _)
  obtain ⟨stride, hready, hstride⟩ := Step.restores_of_advanced ht hwf hview hrestores hsteady
    (hinputs inputs w hw) hadvanced
  exact ⟨inputs, found, stride, ⟨w, hw⟩, hready, rfl, hstride⟩

/-- The step `descendant::node()`. -/
def Step.below : Step Expr := ⟨.descendant, .nodeType .node, []⟩

/-- The step `preceding::*[1]`. -/
def Step.nearestBefore : Step Expr := ⟨.preceding, .wildcard, [.number (Number.ofNat 1)]⟩

/-- From each of the seven nodes below the document of the sample, the nearest element before it is
the first paragraph or the element after that, or there is none. -/
theorem reverse_step_restores_sample :
    (∃ u, ((Expr.path .context [.below, .nearestBefore]).meaning
      (.standard Registry.core.library (.ofTree .sample))).value (.alone ⟨0, 0⟩) .start =
        .ok (.nodeSet ⟨[⟨0, 1⟩, ⟨0, 6⟩]⟩) u) ∧
    ∃ inputs stride,
      (∃ w, ((Expr.path .context [.below]).meaning
        (.standard Registry.core.library (.ofTree .sample))).value (.alone ⟨0, 0⟩) .start =
          .ok (.nodeSet ⟨inputs⟩) w) ∧
      Stride.ofStep (.ofTree .sample)
        (Expr.stepMeaning (.standard Registry.core.library (.ofTree .sample)) .nearestBefore) =
          .ok stride ∧
      stride.Restores (Forest.indexed [.sample]) inputs [⟨0, 1⟩, ⟨0, 6⟩] := by
  have hwf : Tree.sample.WellFormed := by decide
  have hσ : (Setting.ofTree .sample).Within .sample 0 :=
    ⟨⟨rfl, by decide⟩, ⟨rfl, by decide⟩, by rintro p ⟨⟩⟩
  have hinputs : ∀ inputs w, ((Expr.path .context [.below]).meaning
      (.standard Registry.core.library (.ofTree .sample))).value (.alone ⟨0, 0⟩) .start =
        .ok (.nodeSet ⟨inputs⟩) w → ∀ n ∈ inputs, Tree.sample.HasAt 0 n :=
    fun _ _ h => Expr.among rfl hwf .indexed hσ _ ⟨rfl, by decide⟩ h
  have hcomes := Expr.comes_path (Registry.steady_core (.ofTree .sample)) .context
    ([.below] ++ [.nearestBefore]) (c := .alone ⟨0, 0⟩) (I := fun _ => True) (Eval.comes_pure 1)
  have hselected : Path.selected (.ofTree .sample) false
      (Expr.startMeaning (.standard Registry.core.library (.ofTree .sample)) .context)
      (Expr.stepMeanings (.standard Registry.core.library (.ofTree .sample))
        ([.below] ++ [.nearestBefore])) (.known ⟨0, 0⟩ 1 (some 1)) = some [⟨0, 1⟩, ⟨0, 6⟩] := by
    decide +kernel
  obtain ⟨u, hvalue⟩ := (hcomes.ok_iff (s := .start) trivial).2
    (congrArg (Option.map fun found => Value.nodeSet ⟨found⟩) hselected)
  obtain ⟨inputs, found, stride, hbefore, hready, hfound, h⟩ :=
    reverse_step_restores (f := [.sample]) (k := 0) (I := fun _ => True) (s := .start) rfl hwf
      (Registry.steady_core (.ofTree .sample)) .indexed (Eval.comes_pure 1) trivial (.inl rfl)
      hinputs hvalue
  cases hfound
  exact ⟨⟨u, hvalue⟩, inputs, stride, hbefore, hready, h⟩

end XPath
