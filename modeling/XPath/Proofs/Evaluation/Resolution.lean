/-
Qualifiers that are not bound.

A path makes its steps ready one after the other, and a step whose qualifier is not bound cannot be
made ready.  It does not matter how far the path has been taken by then: a step is made ready even
if nothing has been selected before it, and also if one node is enough in the end.  So a path with
such a step is never silently empty.

* `NodeTest.unbound?`, `Step.unbound?` — the qualifier of a test, if it is not bound;
* `Path.Front`, `Path.select_eq` — how far a path has been taken, and a path step by step;
* `Path.select_unbound` — a path with a step that cannot be made ready does what the steps before it
  do, and fails;
* `Path.Front.Plain`, `Path.outcomes_plain` — a path without predicates fails in no other way;
* `unbound_qualifiers_fail` — the value and the truth of such paths.
-/
import XPath.Proofs.Evaluation.Qualifiers

namespace XPath

/-! ### Tests and steps -/

namespace NodeTest

/-- The qualifier of a test, if it is not bound. -/
def unbound? (namespaces : Namespaces) (test : NodeTest) : Option String :=
  test.qualifier?.filter fun qualifier => (namespaces (some qualifier)).isNone

variable {namespaces : Namespaces} {test : NodeTest}

theorem unbound?_eq_some_iff {q : String} :
    test.unbound? namespaces = some q ↔ test.qualifier? = some q ∧ namespaces (some q) = none := by
  rw [unbound?, Option.filter_eq_some_iff, Option.isNone_iff_eq_none]

variable (axis : Axis)

theorem uri_of_unbound {q : String} (h : test.unbound? namespaces = some q) :
    test.uri axis namespaces = .error (.unresolvedQualifier q) := by
  obtain ⟨hq, hnone⟩ := unbound?_eq_some_iff.1 h
  cases test with
  | qualified qualifier localPart =>
    cases hq
    rw [uri, hnone]
  | inNamespace qualifier =>
    cases hq
    rw [uri, hnone]
  | nodeType type => cases hq
  | instruction target => cases hq
  | name localPart => cases hq
  | wildcard => cases hq

theorem exists_uri (h : test.unbound? namespaces = none) :
    ∃ uri, test.uri axis namespaces = .ok uri := by
  have bound : ∀ q, (inNamespace q).unbound? namespaces = none →
      ∃ uri, (inNamespace q).uri axis namespaces = .ok uri := by
    intro q hq
    cases hns : namespaces (some q) with
    | none => cases hq.symm.trans (unbound?_eq_some_iff.2 ⟨rfl, hns⟩)
    | some u => exact ⟨some u, by rw [uri, hns]⟩
  cases test with
  | qualified qualifier localPart => exact bound qualifier h
  | inNamespace qualifier => exact bound qualifier h
  | nodeType type => exact ⟨_, rfl⟩
  | instruction target => exact ⟨_, rfl⟩
  | name localPart => exact ⟨_, rfl⟩
  | wildcard => exact ⟨_, rfl⟩

end NodeTest

namespace Step

variable {ε : Type} {namespaces : Namespaces}

/-- The qualifier of the test of a step, if it is not bound. -/
def unbound? (namespaces : Namespaces) (step : Step ε) : Option String :=
  step.test.unbound? namespaces

theorem isSome_findSome?_unbound {steps : List (Step ε)} :
    (steps.findSome? (unbound? namespaces)).isSome ↔
      ∃ step ∈ steps, ∃ q ∈ step.test.qualifier?, namespaces (some q) = none := by
  rw [List.findSome?_isSome_iff]
  refine exists_congr fun step => and_congr_right fun _ => ?_
  rw [Option.isSome_iff_exists]
  exact exists_congr fun q => NodeTest.unbound?_eq_some_iff

end Step

namespace Stride

variable {σ : Setting} {step : Step Meaning}

theorem ofStep_of_unbound {q : String} (h : step.unbound? σ.namespaces = some q) :
    ofStep σ step = .error (.unresolvedQualifier q) := by
  unfold ofStep
  rw [NodeTest.uri_of_unbound step.axis h]
  rfl

theorem exists_ofStep (h : step.unbound? σ.namespaces = none) :
    ∃ stride, ofStep σ step = .ok stride := by
  obtain ⟨uri, huri⟩ := NodeTest.exists_uri step.axis h
  unfold ofStep
  rw [huri]
  exact ⟨_, rfl⟩

end Stride

/-! ### Step by step -/

namespace Path

/-- How far a path has been taken: the nodes it goes on from, the predicates that keep some of them,
and the steps that are ready and not yet followed. -/
structure Front where
  nodes : List Node
  predicates : List Predicate
  strides : List Stride

namespace Front

/-- Follows the steps that are ready. -/
def collect (once : Bool) (front : Front) : Eval (List Node) :=
  Path.collect once front.nodes front.predicates front.strides

/-- Makes one more step ready.  A step that restores order is followed at once. -/
def advance (σ : Setting) (front : Front) (step : Step Meaning) : Eval Front := do
  let stride ← Eval.ofExcept (Stride.ofStep σ step)
  let next : Front := { front with strides := front.strides ++ [stride] }
  if step.axis.restoresOrder then
    return ⟨σ.view.sort (← next.collect false), [], []⟩
  else return next

theorem advance_of_unbound {σ : Setting} {step : Step Meaning} {q : String}
    (h : step.unbound? σ.namespaces = some q) (front : Front) :
    front.advance σ step = throw (.unresolvedQualifier q) := by
  rw [advance, Stride.ofStep_of_unbound h]
  rfl

end Front

/-- Takes a path as far as some steps. -/
def reach (σ : Setting) (start : Start Meaning) (steps : List (Step Meaning)) (c : Context) :
    Eval Front := do
  let (nodes, predicates) ← startNodes σ c start
  steps.foldlM (Front.advance σ) ⟨nodes, predicates, []⟩

theorem selectFrom_eq (σ : Setting) (once : Bool) (steps : List (Step Meaning)) (front : Front) :
    selectFrom σ once front.nodes front.predicates front.strides steps =
      steps.foldlM (Front.advance σ) front >>= Front.collect once := by
  induction steps generalizing front with
  | nil => rw [selectFrom, List.foldlM_nil, pure_bind, Front.collect]
  | cons step rest ih =>
    rw [selectFrom, List.foldlM_cons, bind_assoc, Front.advance, bind_assoc]
    refine bind_congr fun stride => ?_
    dsimp only
    -- The induction goes on from where the step has led to.
    split
    · rw [bind_assoc]
      refine bind_congr fun found => ?_
      rw [pure_bind, ← ih]
    · rw [pure_bind, ← ih]

variable {σ : Setting} {start : Start Meaning} {c : Context}

/-- How many nodes are enough counts only when the last steps are followed. -/
theorem select_eq (once : Bool) (steps : List (Step Meaning)) :
    select σ once start steps c = reach σ start steps c >>= Front.collect once := by
  rw [select, reach, bind_assoc]
  exact bind_congr fun a => selectFrom_eq σ once steps ⟨a.1, a.2, []⟩

section Unbound

variable {step : Step Meaning} {q : String} (h : step.unbound? σ.namespaces = some q)

include h

/-- A path with a step that cannot be made ready does what the steps before it do, and fails.  What
comes after the step does not matter, nor how many nodes are enough. -/
theorem select_unbound (once : Bool) (before after : List (Step Meaning)) :
    select σ once start (before ++ step :: after) c =
      reach σ start before c >>= fun _ => throw (.unresolvedQualifier q) := by
  rw [select_eq, reach, reach, bind_assoc, bind_assoc]
  refine bind_congr fun (nodes, predicates) => ?_
  dsimp only
  rw [List.foldlM_append, bind_assoc]
  refine bind_congr fun front => ?_
  rw [List.foldlM_cons, Front.advance_of_unbound h]
  rfl

theorem select_fails {steps : List (Step Meaning)} (hmem : step ∈ steps) (s : State) :
    ∃ e t, ∀ once, select σ once start steps c s = .error e t := by
  obtain ⟨before, after, rfl⟩ := List.append_of_mem hmem
  -- Either the steps before it fail, or the step does when they are done.
  cases hs : reach σ start before c s with
  | error e t =>
    refine ⟨e, t, fun once => ?_⟩
    rw [select_unbound h, Eval.bind_of_error hs]
  | ok front t =>
    refine ⟨.unresolvedQualifier q, t, fun once => ?_⟩
    rw [select_unbound h, Eval.bind_of_ok hs]
    rfl

/-- The value of the path fails, and its truth for the same reason. -/
theorem fails_of_unbound {steps : List (Step Meaning)} (hmem : step ∈ steps) (s : State) :
    ∃ e t, evaluate σ start steps c s = .error e t ∧ exists? σ start steps c s = .error e t := by
  obtain ⟨e, t, hselect⟩ : ∃ e t, ∀ once, select σ once start steps c s = .error e t :=
    select_fails h hmem s
  exact ⟨e, t, Eval.bind_of_error (hselect false), Eval.bind_of_error (hselect true)⟩

end Unbound

end Path

/-! ### Without predicates -/

namespace Candidates

variable {β : Type} {visit : Node → β → Eval β} (hv : ∀ n b, ∃ b', visit n b = pure b')
  (nodes : List Node) (enough : β → Bool)

include hv

theorem eachFrom_plain (fuel i : Nat) (stages : List Stage) (b : β) :
    ∃ b', eachFrom nodes [] enough visit fuel i stages b = pure b' := by
  induction fuel generalizing i b with
  | zero => exact ⟨b, rfl⟩
  | succ fuel ih =>
    have hread : Stage.within stages (read nodes [] (some i)) = pure (nodes, stages) := rfl
    rw [eachFrom, hread, pure_bind]
    dsimp only
    split
    · exact ⟨b, rfl⟩
    cases nodes[i]? with
    | none => exact ⟨b, rfl⟩
    | some n =>
      obtain ⟨b', hb⟩ := hv n b
      dsimp only
      rw [hb, pure_bind]
      exact ih (i + 1) b'

/-- Without predicates, visiting candidates does nothing but visit them. -/
theorem each_plain (b : β) : ∃ b', each nodes [] enough visit b = pure b' :=
  eachFrom_plain hv nodes enough _ _ _ b

end Candidates

namespace Path

theorem follow_plain (once : Bool) {strides : List Stride}
    (h : ∀ stride ∈ strides, stride.predicates = []) (n : Node) (p : Progress) :
    ∃ p', follow once strides n p = pure p' := by
  induction strides generalizing n p with
  | nil => exact ⟨_, rfl⟩
  | cons stride rest ih =>
    obtain ⟨hstride, hrest⟩ := List.forall_mem_cons.1 h
    rw [follow, hstride]
    refine Candidates.each_plain (fun m p => ?_) _ _ p
    split
    · exact ⟨p, rfl⟩
    · exact ih hrest m _

variable {σ : Setting} {c : Context}

namespace Front

/-- No predicate is left to be evaluated. -/
structure Plain (front : Front) : Prop where
  predicates : front.predicates = []
  strides : ∀ stride ∈ front.strides, stride.predicates = []

variable {front : Front} (h : front.Plain)

include h

theorem Plain.collect (once : Bool) : ∃ found, front.collect once = pure found := by
  obtain ⟨p, hp⟩ := Candidates.each_plain (follow_plain once h.strides) front.nodes
    (Progress.enough once) ⟨[], []⟩
  refine ⟨p.found, ?_⟩
  rw [Front.collect, Path.collect, h.predicates, hp, pure_bind]

/-- A step without predicates is made ready unless its qualifier is not bound. -/
theorem Plain.advance {step : Step Meaning} (hpredicates : step.predicates = [])
    (hbound : step.unbound? σ.namespaces = none) :
    ∃ next : Front, next.Plain ∧ front.advance σ step = pure next := by
  obtain ⟨stride, hstride⟩ := Stride.exists_ofStep hbound
  have hnone : stride.predicates = [] := by
    rw [Stride.predicates_ofStep hstride, hpredicates]
    rfl
  have hnext : Plain { front with strides := front.strides ++ [stride] } :=
    ⟨h.predicates, by simpa [or_imp, forall_and] using ⟨h.strides, hnone⟩⟩
  rw [Front.advance, hstride, Eval.ofExcept, pure_bind]
  dsimp only
  split
  · obtain ⟨found, hfound⟩ := hnext.collect false
    rw [hfound, pure_bind]
    exact ⟨⟨σ.view.sort found, [], []⟩, ⟨rfl, by simp⟩, rfl⟩
  · exact ⟨_, hnext, rfl⟩

theorem Plain.foldlM {steps : List (Step Meaning)} (hpredicates : ∀ s ∈ steps, s.predicates = [])
    (hbound : ∀ s ∈ steps, s.unbound? σ.namespaces = none) :
    ∃ last : Front, last.Plain ∧ steps.foldlM (Front.advance σ) front = pure last := by
  induction steps generalizing front with
  | nil => exact ⟨front, h, rfl⟩
  | cons step rest ih =>
    obtain ⟨hstep, hrest⟩ := List.forall_mem_cons.1 hpredicates
    obtain ⟨hready, hmore⟩ := List.forall_mem_cons.1 hbound
    obtain ⟨next, hnext, heq⟩ := h.advance hstep hready
    rw [List.foldlM_cons, heq, pure_bind]
    exact ih hnext hrest hmore

end Front

variable {start : Start Meaning} (hstart : start = .root ∨ start = .context)
  {steps : List (Step Meaning)} (hpredicates : ∀ s ∈ steps, s.predicates = [])

include hstart hpredicates

theorem reach_plain (hbound : ∀ s ∈ steps, s.unbound? σ.namespaces = none) :
    ∃ front : Front, front.Plain ∧ reach σ start steps c = pure front := by
  have hplain : ∀ n : Node, Front.Plain ⟨[n], [], []⟩ := fun n => ⟨rfl, by simp⟩
  rcases hstart with rfl | rfl
  · exact (hplain σ.root).foldlM hpredicates hbound
  · exact (hplain c.node).foldlM hpredicates hbound

/-- A path without predicates, all of whose steps can be made ready, does not fail. -/
theorem select_of_bound (hbound : ∀ s ∈ steps, s.unbound? σ.namespaces = none) (once : Bool) :
    ∃ found, select σ once start steps c = pure found := by
  obtain ⟨front, hfront, heq⟩ := reach_plain (c := c) hstart hpredicates hbound
  rw [select_eq, heq, pure_bind]
  exact hfront.collect once

/-- A path without predicates fails because of the first step that cannot be made ready. -/
theorem select_of_first_unbound {q : String}
    (hq : steps.findSome? (Step.unbound? σ.namespaces) = some q) (once : Bool) :
    select σ once start steps c = throw (.unresolvedQualifier q) := by
  obtain ⟨before, step, after, rfl, hstep, hbefore⟩ := List.findSome?_eq_some_iff.1 hq
  obtain ⟨front, -, heq⟩ := reach_plain (c := c) hstart
    (fun s hs => hpredicates s (List.mem_append_left _ hs)) hbefore
  rw [select_unbound hstep, heq, pure_bind]

/-- Its value and its truth fail because of this step, or neither of them fails. -/
theorem outcomes_plain (s : State) :
    match steps.findSome? (Step.unbound? σ.namespaces) with
    | some q => evaluate σ start steps c s = .error (.unresolvedQualifier q) s ∧
        exists? σ start steps c s = .error (.unresolvedQualifier q) s
    | none =>
      ∃ v b, evaluate σ start steps c s = .ok v s ∧ exists? σ start steps c s = .ok b s := by
  cases h : steps.findSome? (Step.unbound? σ.namespaces) with
  | some q =>
    have hselect : ∀ once, select σ once start steps c s = .error (.unresolvedQualifier q) s :=
      fun once => by
        rw [select_of_first_unbound hstart hpredicates h]
        rfl
    exact ⟨Eval.bind_of_error (hselect false), Eval.bind_of_error (hselect true)⟩
  | none =>
    have hselect : ∀ once, ∃ found, select σ once start steps c s = .ok found s := fun once => by
      obtain ⟨found, hfound⟩ := select_of_bound (c := c) hstart hpredicates
        (List.findSome?_eq_none_iff.1 h) once
      exact ⟨found, congrFun hfound s⟩
    obtain ⟨all, hall⟩ := hselect false
    obtain ⟨first, hfirst⟩ := hselect true
    exact ⟨.nodeSet ⟨all⟩, !first.isEmpty, Eval.bind_of_ok hall, Eval.bind_of_ok hfirst⟩

end Path

/-! ### Expressions -/

namespace Expr

theorem meaning_path (σ : Setting) (L : Library) (start : Start Expr) (steps : List (Step Expr)) :
    (path start steps).meaning (.standard L σ) =
      Path.meaning σ (startMeaning (.standard L σ) start)
        (steps.map (stepMeaning (.standard L σ))) := by
  rw [← stepMeanings_eq_map]
  rfl

variable (i : Interpretation)

/-- What a step means has the test of the step. -/
theorem unbound?_stepMeaning (namespaces : Namespaces) (step : Step Expr) :
    (stepMeaning i step).unbound? namespaces = step.unbound? namespaces := by
  obtain ⟨axis, test, predicates⟩ := step
  rfl

theorem findSome?_stepMeaning (namespaces : Namespaces) (steps : List (Step Expr)) :
    (steps.map (stepMeaning i)).findSome? (Step.unbound? namespaces) =
      steps.findSome? (Step.unbound? namespaces) := by
  rw [List.findSome?_map]
  exact congrArg (steps.findSome? ·) (funext (unbound?_stepMeaning i namespaces))

theorem predicates_stepMeaning {step : Step Expr} (h : step.predicates = []) :
    (stepMeaning i step).predicates = [] := by
  obtain ⟨axis, test, predicates⟩ := step
  cases h
  rfl

end Expr

/-- A path is never silently empty because of a qualifier that is not bound.  If the test of one of
its steps has such a qualifier, then the path fails, in every tree, context and library, and for the
same reason whether all nodes are asked for or only whether there is one.  A path without predicates
from the root or the context node fails only then: with the first of these qualifiers, and before
anything has changed. -/
theorem unbound_qualifiers_fail (σ : Setting) (L : Library) (start : Start Expr)
    (steps : List (Step Expr)) :
    let m := (Expr.path start steps).meaning (.standard L σ)
    let unbound := ∃ step ∈ steps, ∃ q ∈ step.test.qualifier?, σ.namespaces (some q) = none
    (unbound → ∀ c s, ∃ e t, m.value c s = .error e t ∧ m.truth c s = .error e t) ∧
    (start = .root ∨ start = .context → (∀ step ∈ steps, step.predicates = []) → ∀ c s,
      ((∃ e t, m.value c s = .error e t) ↔ unbound) ∧
      ((∃ e t, m.truth c s = .error e t) ↔ unbound) ∧
      ∀ q, steps.findSome? (Step.unbound? σ.namespaces) = some q →
        m.value c s = .error (.unresolvedQualifier q) s ∧
        m.truth c s = .error (.unresolvedQualifier q) s) := by
  intro m unbound
  have hm : m = Path.meaning σ _ _ := Expr.meaning_path σ L start steps
  clear_value m
  subst hm
  refine ⟨?_, fun hstart hpredicates c s => ?_⟩
  · rintro ⟨step, hmem, q, hq, hnone⟩ c s
    have hstep : step.unbound? σ.namespaces = some q :=
      NodeTest.unbound?_eq_some_iff.2 ⟨hq, hnone⟩
    rw [← Expr.unbound?_stepMeaning (.standard L σ)] at hstep
    exact Path.fails_of_unbound hstep (List.mem_map_of_mem hmem) s
  · have hstart : Expr.startMeaning (.standard L σ) start = .root ∨
        Expr.startMeaning (.standard L σ) start = .context :=
      hstart.imp (congrArg _) (congrArg _)
    have hpredicates : ∀ s ∈ steps.map (Expr.stepMeaning (.standard L σ)), s.predicates = [] :=
      List.forall_mem_map.2 fun step hmem => Expr.predicates_stepMeaning _ (hpredicates step hmem)
    have houtcomes := Path.outcomes_plain (σ := σ) (c := c) hstart hpredicates s
    rw [Expr.findSome?_stepMeaning] at houtcomes
    cases h : steps.findSome? (Step.unbound? σ.namespaces) with
    | some q =>
      have hunbound : unbound := Step.isSome_findSome?_unbound.1 (h ▸ rfl)
      rw [h] at houtcomes
      obtain ⟨hvalue, htruth⟩ := houtcomes
      refine ⟨iff_of_true ⟨_, _, hvalue⟩ hunbound, iff_of_true ⟨_, _, htruth⟩ hunbound, ?_⟩
      rintro _ ⟨⟩
      exact ⟨hvalue, htruth⟩
    | none =>
      have hbound : ¬ unbound := by
        intro hunbound
        simpa [h] using Step.isSome_findSome?_unbound.2 hunbound
      rw [h] at houtcomes
      obtain ⟨v, b, hvalue, htruth⟩ := houtcomes
      refine ⟨iff_of_false ?_ hbound, iff_of_false ?_ hbound, nofun⟩
      · rintro ⟨e, t, he⟩
        cases hvalue.symm.trans he
      · rintro ⟨e, t, he⟩
        cases htruth.symm.trans he

/-- The steps `child::nothing/preceding::*/h:p/x:*`. -/
def Step.belowNothing : List (Step Expr) :=
  [⟨.child, .name "nothing", []⟩, ⟨.preceding, .wildcard, []⟩, ⟨.child, .qualified "h" "p", []⟩,
    ⟨.child, .inNamespace "x", []⟩]

/-- The first two steps select nothing in the sample, but the path fails with the qualifier of the
third one.  It fails also from `(/)[2]`, which is no node at all. -/
theorem unbound_qualifiers_fail_sample :
    let σ := Setting.ofTree .sample
    let i := Interpretation.standard Registry.core.library σ
    let steps := Step.belowNothing
    let c := Context.alone ⟨0, 0⟩
    (∃ step ∈ steps, ∃ q ∈ step.test.qualifier?, σ.namespaces (some q) = none) ∧
    (∀ step ∈ steps, step.predicates = []) ∧
    ((Expr.path .context (steps.take 2)).meaning i).value c .start = .ok (.nodeSet ⟨[]⟩) .start ∧
    ((Expr.path .context steps).meaning i).value c .start =
      .error (.unresolvedQualifier "h") .start ∧
    ((Expr.path .context steps).meaning i).truth c .start =
      .error (.unresolvedQualifier "h") .start ∧
    ∃ e t, ((Expr.path (.filter (.path .root []) [.number 2]) steps).meaning i).truth c .start =
      .error e t := by
  intro σ i steps c
  have hunbound : ∃ step ∈ steps, ∃ q ∈ step.test.qualifier?, σ.namespaces (some q) = none :=
    ⟨⟨.child, .qualified "h" "p", []⟩, by simp [steps, Step.belowNothing], "h", rfl, rfl⟩
  have hpredicates : ∀ step ∈ steps, step.predicates = [] := by simp [steps, Step.belowNothing]
  have hempty : ((Expr.path .context (steps.take 2)).meaning i).value c .start =
      .ok (.nodeSet ⟨[]⟩) .start := by cbv
  obtain ⟨-, -, hfirst⟩ := (unbound_qualifiers_fail σ Registry.core.library .context steps).2
    (.inr rfl) hpredicates c .start
  obtain ⟨hvalue, htruth⟩ := hfirst "h" rfl
  obtain ⟨e, t, -, hfails⟩ := (unbound_qualifiers_fail σ Registry.core.library
    (.filter (.path .root []) [.number 2]) steps).1 hunbound c .start
  exact ⟨hunbound, hpredicates, hempty, hvalue, htruth, e, t, hfails⟩

end XPath
