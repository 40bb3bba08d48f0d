/-
The double slash.

A double slash stands for all nodes from a node down, and a child of one of them is a node below it.
So a double slash and a step to children select what one step to descendants does.  They come by it
in another order, and by way of more nodes, but what is selected further on depends only on the set.

* `Forest.mem_descendants_iff` — what is below a node are the children of it and of what is below;
* `Option.Rel SameSet` — paths that both fail, or select the same set;
* `Step.advanced_descendant` — the two ways to take one part of a path;
* `Path.selected_descendant` — with any steps before and after it;
* `Expr.ofSyntax_tree_append` — how the parts of a path are compiled, one by one;
* `descendant_abbreviation` — the two paths as expressions, and as requests.
-/
import XPath.Proofs.Evaluation.Backwards
import XPath.Proofs.Query.Requests
import XPath.Proofs.Syntax.Builders
import XPath.Proofs.Value.Union

namespace XPath

/-! ### Below a node -/

/-- Below a node are the children of the nodes from there down. -/
theorem Tree.mem_flatMap_subtree_iff {t : Tree} {i j : Nat} :
    j ∈ (t.children i).flatMap t.subtree ↔ ∃ d ∈ t.subtree i, j ∈ t.children d := by
  constructor
  · induction i using subtree_induction (t := t) with
    | h i ih =>
      intro h
      obtain ⟨c, hc, h⟩ := List.mem_flatMap.1 h
      rw [subtree_eq, List.mem_cons] at h
      rcases h with rfl | h
      · exact ⟨i, subtree_eq t i ▸ List.mem_cons_self, hc⟩
      · obtain ⟨d, hd, hj⟩ := ih c hc h
        refine ⟨d, ?_, hj⟩
        rw [subtree_eq]
        exact List.mem_cons_of_mem i (List.mem_flatMap.2 ⟨c, hc, hd⟩)
  · rintro ⟨d, hd, hj⟩
    have hmem := mem_subtree_of_mem_children hd hj
    rw [subtree_eq, List.mem_cons] at hmem
    refine hmem.resolve_left fun heq => ?_
    -- A child comes after what is above it.
    have := le_of_mem_subtree hd
    have := lt_of_mem_children hj
    omega

/-- Below a node are the children of it and of the nodes below it. -/
theorem Forest.mem_descendants_iff {f : Forest} {v : View}
    (hv : v ∈ [f.indexed, f.structural, f.withoutNamespaces, f.linked]) {n m : Node} :
    m ∈ v.descendants n ↔ ∃ d ∈ v.descendantsOrSelf n, m ∈ v.children d := by
  obtain ⟨k, i⟩ := n
  cases ht : f[k]? with
  | some t =>
    have h := presents_of_mem ht hv
    rw [h.descendantsOrSelf_eq, h.descendants_eq]
    constructor
    · intro hm
      obtain ⟨j, hj, rfl⟩ := List.mem_map.1 hm
      obtain ⟨d, hd, hj⟩ := Tree.mem_flatMap_subtree_iff.1 hj
      refine ⟨⟨k, d⟩, List.mem_map_of_mem hd, ?_⟩
      rw [h.children_eq]
      exact List.mem_map_of_mem hj
    · rintro ⟨_, hmem, hm⟩
      obtain ⟨d, hd, rfl⟩ := List.mem_map.1 hmem
      rw [h.children_eq] at hm
      obtain ⟨j, hj, rfl⟩ := List.mem_map.1 hm
      exact List.mem_map_of_mem (Tree.mem_flatMap_subtree_iff.2 ⟨d, hd, hj⟩)
  | none =>
    -- There is nothing at a number that no tree has.
    have hlayout : layoutOf f.layouts ⟨k, i⟩ = Layout.of Tree.empty := by
      rw [layoutOf, layouts]
      simp [ht]
    have hfirst : v.firstChild? ⟨k, i⟩ = none := by
      have hrow :
          ((layoutOf f.layouts ⟨k, i⟩).row i).children.head?.map (beside ⟨k, i⟩) = none := by
        rw [hlayout, Layout.row_of]
        rfl
      simp only [List.mem_cons, List.not_mem_nil, or_false] at hv
      rcases hv with rfl | rfl | rfl | rfl <;> exact hrow
    have hchildren : v.children ⟨k, i⟩ = [] := by
      rw [Links.children, hfirst, Links.chain]
      cases v.bound <;> rfl
    obtain ⟨hdescendants, hself⟩ := View.descendants_of_firstChild? hfirst
    rw [hdescendants]
    refine ⟨fun hm => absurd hm List.not_mem_nil, ?_⟩
    rintro ⟨d, hd, hm⟩
    rw [hself d hd, hchildren] at hm
    exact hm

/-! ### The same set -/

/-- Lists of the same nodes, in any order. -/
def SameSet (xs ys : List Node) : Prop := ∀ n, n ∈ xs ↔ n ∈ ys

theorem SameSet.rel_symm {x y : Option (List Node)} (h : Option.Rel SameSet x y) :
    Option.Rel SameSet y x := by
  cases h with
  | none => exact .none
  | some h => exact .some fun n => (h n).symm

theorem sameSet_firstOccurrences {xs ys : List Node} (h : SameSet xs ys) :
    SameSet (firstOccurrences xs) (firstOccurrences ys) := fun n => by
  rw [mem_firstOccurrences, mem_firstOccurrences, h n]

/-- A step goes on alike from the same nodes: it fails from both lists, or selects the same. -/
theorem Step.advanced_sameSet (σ : Setting) (step : Step Meaning) {xs ys : List Node}
    (h : SameSet xs ys) : Option.Rel SameSet (step.advanced σ xs) (step.advanced σ ys) := by
  unfold advanced
  cases (Eval.ofExcept (Stride.ofStep σ step)).outcome with
  | none => exact .none
  | some stride =>
    have hall : (xs.all fun n => (stride.supply n).complete) =
        ys.all fun n => (stride.supply n).complete := by
      rw [Bool.eq_iff_iff, List.all_eq_true, List.all_eq_true]
      exact forall_congr' fun n => imp_congr (h n) Iff.rfl
    have hleads : SameSet (xs.flatMap stride.leads) (ys.flatMap stride.leads) := fun m => by
      simp only [List.mem_flatMap, h _]
    rw [Option.bind_some, Option.bind_some, Stride.advanced, Stride.advanced, hall]
    split
    · refine .some fun m => ?_
      unfold Axis.arranged
      split
      · rw [(σ.view.sort_perm _).mem_iff, (σ.view.sort_perm _).mem_iff]
        exact sameSet_firstOccurrences hleads m
      · exact sameSet_firstOccurrences hleads m
    · exact .none

theorem Step.bind_advanced_sameSet (σ : Setting) (step : Step Meaning) {x y : Option (List Node)}
    (h : Option.Rel SameSet x y) :
    Option.Rel SameSet (x.bind (step.advanced σ)) (y.bind (step.advanced σ)) := by
  cases h with
  | none => exact .none
  | some h => exact step.advanced_sameSet σ h

/-- A step without predicates that does not restore an order selects all its candidates. -/
theorem Step.advanced_of_ofStep {σ : Setting} {axis : Axis} (haxis : axis.restoresOrder = false)
    {test : NodeTest} {stride : Stride} (h : Stride.ofStep σ ⟨axis, test, []⟩ = .ok stride)
    (inputs : List Node) : Step.advanced σ ⟨axis, test, []⟩ inputs =
      some (firstOccurrences (inputs.flatMap stride.candidates)) := by
  have hsupply : ∀ n, stride.supply n = ⟨stride.candidates n, true⟩ := fun n => by
    rw [Stride.supply, Stride.predicates_ofStep h]
    rfl
  rw [advanced, h]
  show (stride.advanced inputs).map _ = _
  have hleads : stride.leads = stride.candidates :=
    funext fun n => congrArg Supply.nodes (hsupply n)
  rw [Stride.advanced, if_pos (by simp [hsupply]), hleads]
  simp [Axis.arranged, haxis]

/-- A step that cannot be made ready selects nothing. -/
theorem Step.advanced_of_error {σ : Setting} {step : Step Meaning} {e : Error}
    (h : Stride.ofStep σ step = .error e) (inputs : List Node) : step.advanced σ inputs = none := by
  rw [advanced, h]
  rfl

section Abbreviation

variable {f : Forest} {σ : Setting}
  (hview : σ.view ∈ [f.indexed, f.structural, f.withoutNamespaces, f.linked])

include hview

/-- A double slash and a step to children select what one step to descendants does. -/
theorem Step.advanced_descendant (test : NodeTest) (inputs : List Node) :
    Option.Rel SameSet
      ((Step.advanced σ (.all .descendantOrSelf) inputs).bind (Step.advanced σ ⟨.child, test, []⟩))
      (Step.advanced σ ⟨.descendant, test, []⟩ inputs) := by
  rw [Step.all, advanced_of_ofStep rfl rfl, Option.bind_some]
  -- Names ask for the same namespace on both axes, and for nodes of the same kind.
  have huri : test.uri .child σ.namespaces = test.uri .descendant σ.namespaces := by
    cases test <;> rfl
  have haccepts : ∀ uri n, test.accepts σ.view.toLinks .child uri n =
      test.accepts σ.view.toLinks .descendant uri n := by
    cases test <;> intros <;> rfl
  cases hu : test.uri .descendant σ.namespaces with
  | error e =>
    have herror : ∀ axis, test.uri axis σ.namespaces = .error e →
        Stride.ofStep σ ⟨axis, test, []⟩ = .error e := fun axis h => by
      rw [Stride.ofStep, h]
      rfl
    rw [advanced_of_error (herror .child (huri.trans hu)),
      advanced_of_error (herror .descendant hu)]
    exact .none
  | ok uri =>
    have hready : ∀ axis, test.uri axis σ.namespaces = .ok uri →
        Stride.ofStep σ ⟨axis, test, []⟩ = .ok ⟨fun n =>
          (σ.view.walk axis n σ.root).filter (test.accepts σ.view.toLinks axis uri), []⟩ :=
      fun axis h => by
        rw [Stride.ofStep, h]
        rfl
    rw [advanced_of_ofStep rfl (hready .child (huri.trans hu)),
      advanced_of_ofStep rfl (hready .descendant hu)]
    refine .some fun m => ?_
    simp only [mem_firstOccurrences, List.mem_flatMap, List.mem_filter, haccepts]
    constructor
    · rintro ⟨d, ⟨n, hn, hd, -⟩, hm, haccepted⟩
      exact ⟨n, hn, (Forest.mem_descendants_iff hview).2 ⟨d, hd, hm⟩, haccepted⟩
    · rintro ⟨n, hn, hm, haccepted⟩
      obtain ⟨d, hd, hm⟩ := (Forest.mem_descendants_iff hview).1 hm
      exact ⟨d, ⟨n, hn, hd, rfl⟩, hm, haccepted⟩

/-- Whatever steps come before and after, it makes no difference to the set that is selected. -/
theorem Path.selected_descendant (test : NodeTest) (start : Start Meaning)
    (before after : List (Step Meaning)) (c : Context) :
    Option.Rel SameSet
      (selected σ false start
        (before ++ [.all .descendantOrSelf, ⟨.child, test, []⟩] ++ after) c)
      (selected σ false start (before ++ [⟨.descendant, test, []⟩] ++ after) c) := by
  induction after using List.reverseRecOn with
  | nil =>
    rw [List.append_nil, List.append_nil, List.append_cons, selected_append_singleton,
      selected_append_singleton, selected_append_singleton, Option.bind_assoc]
    cases selected σ false start before c with
    | none => exact .none
    | some inputs => exact Step.advanced_descendant hview test inputs
  | append_singleton after last ih =>
    rw [← List.append_assoc, ← List.append_assoc, selected_append_singleton,
      selected_append_singleton]
    exact last.bind_advanced_sameSet σ ih

end Abbreviation

/-! ### Expressions -/

/-- A path with a double slash and a step to children at one place. -/
def Expr.byDescendants (start : Start Expr) (before : List (Step Expr)) (test : NodeTest)
    (after : List (Step Expr)) : Expr :=
  .path start (before ++ [.all .descendantOrSelf, ⟨.child, test, []⟩] ++ after)

/-- The same path with a step to descendants at that place. -/
def Expr.toDescendants (start : Start Expr) (before : List (Step Expr)) (test : NodeTest)
    (after : List (Step Expr)) : Expr :=
  .path start (before ++ [⟨.descendant, test, []⟩] ++ after)

/-- If the one selects nodes, then so does the other, and they are the same set. -/
def Eval.SelectsAlike (s : State) (x y : Eval Value) : Prop :=
  ∀ v u, x s = .ok v u →
    ∃ A B w, v = .nodeSet ⟨A⟩ ∧ y s = .ok (.nodeSet ⟨B⟩) w ∧ SameSet A B

theorem Eval.selectsAlike_of_comes {I : List Stage → Prop} {s : State} (hs : I s.stages)
    {x y : Eval Value} {p q : Option (List Node)}
    (hx : x.Comes I (p.map fun found => .nodeSet ⟨found⟩))
    (hy : y.Comes I (q.map fun found => .nodeSet ⟨found⟩)) (h : Option.Rel SameSet p q) :
    x.SelectsAlike s y := by
  intro v u hv
  obtain ⟨A, hA, rfl⟩ := Option.map_eq_some_iff.1 (hx.ok hs hv)
  cases h with
  | none => cases hA
  | some h =>
    cases hA
    obtain ⟨w, hw⟩ := hy.gives hs
    exact ⟨A, _, w, rfl, hw, h⟩

section Expressions

variable {f : Forest} {L : Library} {σ : Setting}
  (hview : σ.view ∈ [f.indexed, f.structural, f.withoutNamespaces, f.linked]) (hL : L.Steady σ)

include hview hL

theorem Expr.selectsAlike_descendant (start : Start Expr) (before : List (Step Expr))
    (test : NodeTest) (after : List (Step Expr)) {c : Context} {I : List Stage → Prop}
    {size? : Option Nat} (hc : c.size.Comes I size?) {s : State} (hs : I s.stages) :
    (((byDescendants start before test after).meaning (.standard L σ)).value c).SelectsAlike s
        (((toDescendants start before test after).meaning (.standard L σ)).value c) ∧
      (((toDescendants start before test after).meaning (.standard L σ)).value c).SelectsAlike s
        (((byDescendants start before test after).meaning (.standard L σ)).value c) := by
  have hlong := comes_path hL start
    (before ++ [.all .descendantOrSelf, ⟨.child, test, []⟩] ++ after) hc
  have hshort := comes_path hL start (before ++ [⟨.descendant, test, []⟩] ++ after) hc
  have h := Path.selected_descendant hview test (startMeaning (.standard L σ) start)
    (stepMeanings (.standard L σ) before) (stepMeanings (.standard L σ) after)
    (.known c.node c.position size?)
  rw [stepMeanings_append, stepMeanings_append] at hlong hshort
  exact ⟨Eval.selectsAlike_of_comes hs hlong hshort h,
    Eval.selectsAlike_of_comes hs hshort hlong (SameSet.rel_symm h)⟩

end Expressions

/-- What a path selects is its value at a node alone. -/
theorem Expr.value_path_of_selected {L : Library} {σ : Setting} (hL : L.Steady σ)
    {start : Start Expr} {steps : List (Step Expr)} {n : Node} {found : List Node}
    (h : Path.selected σ false (startMeaning (.standard L σ) start)
      (stepMeanings (.standard L σ) steps) (.known n 1 (some 1)) = some found) :
    ∃ u, ((Expr.path start steps).meaning (.standard L σ)).value (.alone n) .start =
      .ok (.nodeSet ⟨found⟩) u := by
  have hcomes := comes_path hL start steps (c := .alone n) (I := fun _ => True)
    (Eval.comes_pure 1)
  exact (hcomes.ok_iff trivial).2 (congrArg (Option.map fun found => Value.nodeSet ⟨found⟩) h)

/-! ### Syntax -/

/-- What a path starts with, as it is written. -/
inductive PathHead where
  | absolute
  | relative
  /-- An expression; predicates may follow it. -/
  | filter (primary : SyntaxTree)

namespace PathHead

/-- A path as it is written: its text, and its parts after what it starts with. -/
def tree (text : String) (parts : List SyntaxTree) : PathHead → SyntaxTree
  | absolute => .node .absoluteLocationPath text parts
  | relative => .node .relativeLocationPath text parts
  | filter primary => .node .filterPathExpr text (primary :: parts)

/-- Compiles what a path starts with and its first parts. -/
def compile (parts : List SyntaxTree) : PathHead → Except Error (Start Expr × List (Step Expr))
  | absolute => do return (.root, ← Expr.steps parts)
  | relative => do return (.context, ← Expr.steps parts)
  | filter primary => do
    let e ← Expr.ofSyntax primary
    let (predicates, steps) ← Expr.filtered parts
    return (.filter e predicates, steps)

end PathHead

namespace Expr

variable {parts : List SyntaxTree}

theorem bind_eq_ok_iff {α β : Type} {x : Except Error α} {g : α → Except Error β} {b : β} :
    x >>= g = .ok b ↔ ∃ a, x = .ok a ∧ g a = .ok b := by
  cases x with
  | error e =>
    constructor
    · intro h
      cases h
    · rintro ⟨_, h, -⟩
      cases h
  | ok a =>
    constructor
    · intro h
      exact ⟨a, rfl, h⟩
    · rintro ⟨_, h, hg⟩
      cases h
      exact hg

theorem steps_append (front parts : List SyntaxTree) : steps (front ++ parts) = do
    let before ← steps front
    let ss ← steps parts
    return before ++ ss := by
  induction front with
  | nil =>
    rw [List.nil_append, steps]
    cases steps parts <;> rfl
  | cons part front ih =>
    rw [List.cons_append, steps, steps, ih]
    simp only [bind_assoc, pure_bind, List.cons_append]

theorem filtered_append_steps (front : List SyntaxTree)
    (hkind : ∀ part ∈ parts.head?, part.kind ≠ .predicate) : filtered (front ++ parts) = do
      let (predicates, before) ← filtered front
      let ss ← steps parts
      return (predicates, before ++ ss) := by
  induction front with
  | nil =>
    rw [List.nil_append, filtered_of_steps hkind, filtered]
    cases steps parts <;> rfl
  | cons part front ih =>
    rw [List.cons_append, filtered, filtered]
    split
    · rw [ih]
      simp only [bind_assoc, pure_bind]
    · rw [steps_append]
      simp only [bind_assoc, pure_bind, List.cons_append]

/-- A path is compiled part by part, if there is a part that is no predicate. -/
theorem ofSyntax_tree_append (head : PathHead) (text : String) (front : List SyntaxTree)
    (hne : parts ≠ []) (hkind : ∀ part ∈ parts.head?, part.kind ≠ .predicate) :
    ofSyntax (head.tree text (front ++ parts)) = do
      let (start, before) ← head.compile front
      let ss ← steps parts
      return .path start (before ++ ss) := by
  cases head with
  | absolute =>
    show (steps (front ++ parts)).map (Expr.path .root) = _
    rw [steps_append, PathHead.compile]
    cases steps front <;> cases steps parts <;> rfl
  | relative =>
    have hparts : (front ++ parts).isEmpty = false := by
      rw [← Bool.not_eq_true, List.isEmpty_iff, List.append_eq_nil_iff]
      exact fun h => hne h.2
    show (if (front ++ parts).isEmpty then _ else (steps (front ++ parts)).map (Expr.path .context))
      = _
    rw [hparts, if_neg Bool.false_ne_true, steps_append, PathHead.compile]
    cases steps front <;> cases steps parts <;> rfl
  | filter primary =>
    obtain ⟨part, rest, hsplit⟩ := List.exists_cons_of_ne_nil
      (List.append_ne_nil_of_right_ne_nil front hne)
    have h : ofSyntax ((PathHead.filter primary).tree text (part :: rest)) =
        (ofSyntax primary >>= fun primary => filtered (part :: rest) >>= fun r =>
          pure (.path (.filter primary r.1) r.2)) := rfl
    rw [hsplit, h, ← hsplit, filtered_append_steps front hkind, PathHead.compile]
    simp only [bind_assoc, pure_bind]

section Abbreviation

variable {test : SyntaxTree} {after : List SyntaxTree}

/-- A test that compiles is not taken for the name of an axis. -/
theorem kind_ne_of_nodeTest {τ : NodeTest} (h : test.nodeTest = .ok τ) : test.kind ≠ .axisName := by
  obtain ⟨kind, text, parts⟩ := test
  rintro (rfl : kind = .axisName)
  cases h

/-- A step to descendants compiles if its test does. -/
theorem step_step_descendant_iff {s : Step Expr} :
    step (.step (some "descendant") test []) = .ok s ↔
      ∃ τ, test.nodeTest = .ok τ ∧ s = ⟨.descendant, τ, []⟩ := by
  have haxis : (SyntaxTree.leaf .axisName "descendant").axis = .ok .descendant := by decide
  cases hτ : test.nodeTest with
  | ok τ =>
    rw [step_step_some haxis hτ rfl]
    simp [eq_comm]
  | error e =>
    have herror : step (.step (some "descendant") test []) = .error e := by
      show step (.node .step _ (.leaf .axisName "descendant" :: test :: [])) = _
      rw [step]
      simp only [SyntaxTree.kind_leaf, if_true, haxis, predicates, hτ]
      rfl
    rw [herror]
    simp

/-- A step to children compiles if its test does. -/
theorem step_step_none_iff {s : Step Expr} :
    step (.step none test []) = .ok s ↔ ∃ τ, test.nodeTest = .ok τ ∧ s = ⟨.child, τ, []⟩ := by
  cases hτ : test.nodeTest with
  | ok τ =>
    rw [step_step_none (kind_ne_of_nodeTest hτ) hτ rfl]
    simp [eq_comm]
  | error e =>
    have herror : ∃ e', step (.step none test []) = .error e' := by
      show ∃ e', step (.node .step _ (test :: [])) = _
      rw [step]
      by_cases hkind : test.kind = .axisName
      · simp only [if_pos hkind]
        cases test.axis <;> exact ⟨_, rfl⟩
      · simp only [if_neg hkind, predicates, hτ]
        exact ⟨_, rfl⟩
    obtain ⟨e', herror⟩ := herror
    rw [herror]
    simp

theorem steps_cons_iff {part : SyntaxTree} {ss : List (Step Expr)} :
    steps (part :: after) = .ok ss ↔
      ∃ s later, step part = .ok s ∧ steps after = .ok later ∧ ss = s :: later := by
  rw [steps, bind_eq_ok_iff]
  simp only [bind_eq_ok_iff, pure, Except.pure, Except.ok.injEq, eq_comm (a := ss)]
  exact ⟨fun ⟨s, hs, later, hlater, h⟩ => ⟨s, later, hs, hlater, h⟩,
    fun ⟨s, later, hs, hlater, h⟩ => ⟨s, hs, later, hlater, h⟩⟩

theorem ofSyntax_tree_append_iff {head : PathHead} {text : String} {front : List SyntaxTree}
    (hne : parts ≠ []) (hkind : ∀ part ∈ parts.head?, part.kind ≠ .predicate) {e : Expr} :
    ofSyntax (head.tree text (front ++ parts)) = .ok e ↔ ∃ start before ss,
      head.compile front = .ok (start, before) ∧ steps parts = .ok ss ∧
        e = .path start (before ++ ss) := by
  rw [ofSyntax_tree_append head text front hne hkind, bind_eq_ok_iff, Prod.exists]
  simp only [bind_eq_ok_iff, pure, Except.pure, Except.ok.injEq, eq_comm (a := e)]
  exact exists_congr fun start => exists_congr fun before =>
    ⟨fun ⟨h, ss, hss, he⟩ => ⟨ss, h, hss, he⟩, fun ⟨ss, h, hss, he⟩ => ⟨h, ss, hss, he⟩⟩

/-- A path with a double slash and a step to children, as it is compiled. -/
theorem ofSyntax_double_slash_iff {head : PathHead} {text : String} {front : List SyntaxTree}
    {e : Expr} :
    ofSyntax (head.tree text (front ++ .descendant :: .step none test [] :: after)) = .ok e ↔
      ∃ start before τ later, head.compile front = .ok (start, before) ∧
        test.nodeTest = .ok τ ∧ steps after = .ok later ∧
        e = byDescendants start before τ later := by
  have hall : step .descendant = .ok (.all .descendantOrSelf) := rfl
  rw [ofSyntax_tree_append_iff (List.cons_ne_nil _ _) (by rintro _ ⟨⟩ ⟨⟩)]
  refine exists_congr fun start => exists_congr fun before => ?_
  constructor
  · rintro ⟨_, hfront, hss, rfl⟩
    obtain ⟨first, _, hfirst, hrest, rfl⟩ := steps_cons_iff.1 hss
    obtain ⟨second, later, hsecond, hlater, rfl⟩ := steps_cons_iff.1 hrest
    obtain ⟨τ, hτ, rfl⟩ := step_step_none_iff.1 hsecond
    cases hall.symm.trans hfirst
    exact ⟨τ, later, hfront, hτ, hlater, by rw [byDescendants, List.append_assoc]; rfl⟩
  · rintro ⟨τ, later, hfront, hτ, hlater, rfl⟩
    refine ⟨_, hfront, steps_cons_iff.2 ⟨_, _, hall, steps_cons_iff.2
      ⟨_, _, step_step_none_iff.2 ⟨τ, hτ, rfl⟩, hlater, rfl⟩, rfl⟩, ?_⟩
    rw [byDescendants, List.append_assoc]
    rfl

/-- A path with a step to descendants there, as it is compiled. -/
theorem ofSyntax_descendant_iff {head : PathHead} {text : String} {front : List SyntaxTree}
    {e : Expr} :
    ofSyntax (head.tree text (front ++ .step (some "descendant") test [] :: after)) = .ok e ↔
      ∃ start before τ later, head.compile front = .ok (start, before) ∧
        test.nodeTest = .ok τ ∧ steps after = .ok later ∧
        e = toDescendants start before τ later := by
  rw [ofSyntax_tree_append_iff (List.cons_ne_nil _ _) (by rintro _ ⟨⟩ ⟨⟩)]
  refine exists_congr fun start => exists_congr fun before => ?_
  constructor
  · rintro ⟨_, hfront, hss, rfl⟩
    obtain ⟨first, later, hfirst, hlater, rfl⟩ := steps_cons_iff.1 hss
    obtain ⟨τ, hτ, rfl⟩ := step_step_descendant_iff.1 hfirst
    exact ⟨τ, later, hfront, hτ, hlater, by rw [toDescendants, List.append_assoc]; rfl⟩
  · rintro ⟨τ, later, hfront, hτ, hlater, rfl⟩
    refine ⟨_, hfront,
      steps_cons_iff.2 ⟨_, _, step_step_descendant_iff.2 ⟨τ, hτ, rfl⟩, hlater, rfl⟩, ?_⟩
    rw [toDescendants, List.append_assoc]
    rfl

end Abbreviation

end Expr

/-! ### Requests -/

theorem Forest.Shows.mem {f : Forest} {t : Tree} {v : View} (hv : f.Shows t v) :
    v ∈ [f.indexed, f.structural, f.withoutNamespaces, f.linked] := by
  cases hv <;> simp

section Requests

variable {f : Forest} {k : Nat} {t : Tree} (ht : f[k]? = some t) (hwf : t.WellFormed)
  {e : Engine} (hlibrary : e.library = Registry.core.library)
  (hbindings : ∀ p ∈ e.bindings, p.2.Unique ∧ p.2.Among (t.HasAt k))
  {target : Target} (hview : f.Shows t target.view) (hnode : t.HasAt k target.node)
  (hroot : ∀ root ∈ target.root, t.HasAt k root)

include ht hwf hbindings hview hnode hroot

/-- A request about a tree is evaluated within it. -/
theorem Target.within : (target.setting e).Within t k := by
  have hdocument := ((hview.alike ht hview hwf).document_eq hnode).2
  refine ⟨hdocument, ?_, hbindings⟩
  show t.HasAt k (target.root.getD (target.view.document target.node))
  cases hr : target.root with
  | none => exact hdocument
  | some root => exact hroot root hr

include hlibrary

/-- Expressions that select alike are answered by the same list. -/
theorem Engine.reply_evaluateNodes_of_selectsAlike (h : e.Reachable) {s s' : SyntaxTree}
    (halike : ∀ expr, Expr.ofSyntax s = .ok expr → ∃ expr', Expr.ofSyntax s' = .ok expr' ∧
      ((expr.meaning (target.interpretation e)).value (.alone target.node)).SelectsAlike .start
        ((expr'.meaning (target.interpretation e)).value (.alone target.node)))
    {found : List Node} (hfound : (e.reply (evaluateNodes s target)).result = .ok found) :
    (e.reply (evaluateNodes s' target)).result = .ok found := by
  obtain ⟨expr, A, u, hs, hA, rfl⟩ := (reply_evaluateNodes_ok_iff h).1 hfound
  obtain ⟨expr', hs', hsame⟩ := halike expr hs
  obtain ⟨_, B, w, ⟨⟩, hB, hmem⟩ := hsame _ u hA
  refine (reply_evaluateNodes_ok_iff h).2 ⟨expr', B, w, hs', hB, ?_⟩
  have hwithin := Target.within ht hwf hbindings hview hnode hroot
  rw [Target.interpretation, hlibrary] at hA hB
  obtain ⟨hnodup, hknown⟩ := Expr.unique_among ht hwf hview hwithin expr hnode hA
  obtain ⟨hnodup', -⟩ := Expr.unique_among ht hwf hview hwithin expr' hnode hB
  exact ((hview.ranks ht hwf).sort_congr hknown hnodup hnodup' hmem).symm

end Requests

/-- A path that selects all nodes below the context node by a double slash. -/
def Expr.everythingByDescendants : Expr := .byDescendants .context [] (.nodeType .node) []

/-- A path that selects all nodes below the context node by one step. -/
def Expr.everythingBelow : Expr := .toDescendants .context [] (.nodeType .node) []

/-- Children come before what is below them, node for node. -/
theorem Expr.value_everythingByDescendants : ∃ u,
    (everythingByDescendants.meaning (.standard Registry.core.library .ofSample)).value
      (.alone ⟨0, 0⟩) .start = .ok (.nodeSet ⟨[1, 5, 6, 7, 8, 4, 9].map (Node.mk 0)⟩) u :=
  value_path_of_selected (Registry.steady_core _) (by decide +kernel)

/-- One step comes to the nodes in document order. -/
theorem Expr.value_everythingBelow : ∃ u,
    (everythingBelow.meaning (.standard Registry.core.library .ofSample)).value
      (.alone ⟨0, 0⟩) .start = .ok (.nodeSet ⟨[1, 4, 5, 6, 7, 8, 9].map (Node.mk 0)⟩) u :=
  value_path_of_selected (Registry.steady_core _) (by decide +kernel)

/-- A double slash and a step to children, without predicates, select what one step to descendants
selects with the same test: in every view of a forest, from every context, after any start and any
steps, and with any steps after them.  Either path fails where the other does.  The requests for
nodes of a well-formed tree answer with the same list for both.  But unsorted the nodes are in
another order. -/
theorem descendant_abbreviation :
    (∀ (f : Forest) (L : Library) (σ : Setting),
      σ.view ∈ [f.indexed, f.structural, f.withoutNamespaces, f.linked] → L.Steady σ →
      ∀ (start : Start Expr) (before : List (Step Expr)) (test : NodeTest)
        (after : List (Step Expr)) (c : Context) (I : List Stage → Prop) (size? : Option Nat)
        (s : State), c.size.Comes I size? → I s.stages →
      let long := (Expr.byDescendants start before test after).meaning (.standard L σ)
      let short := (Expr.toDescendants start before test after).meaning (.standard L σ)
      (long.value c).SelectsAlike s (short.value c) ∧
        (short.value c).SelectsAlike s (long.value c)) ∧
    (∀ (f : Forest) (k : Nat) (t : Tree) (e : Engine) (target : Target),
      f[k]? = some t → t.WellFormed → e.Reachable → e.library = Registry.core.library →
      (∀ p ∈ e.bindings, p.2.Unique ∧ p.2.Among (t.HasAt k)) →
      f.Shows t target.view → t.HasAt k target.node → (∀ root ∈ target.root, t.HasAt k root) →
      ∀ (head : PathHead) (front : List SyntaxTree) (test : SyntaxTree)
        (after : List SyntaxTree) (text text' : String) (found : List Node),
      (e.reply (Engine.evaluateNodes
          (head.tree text (front ++ .descendant :: .step none test [] :: after)) target)).result =
            .ok found ↔
        (e.reply (Engine.evaluateNodes
          (head.tree text' (front ++ .step (some "descendant") test [] :: after)) target)).result =
            .ok found) ∧
    ∃ (σ : Setting) (c : Context) (A B : List Node) (u w : State),
      (Expr.everythingByDescendants.meaning (.standard Registry.core.library σ)).value c .start =
        .ok (.nodeSet ⟨A⟩) u ∧
      (Expr.everythingBelow.meaning (.standard Registry.core.library σ)).value c .start =
        .ok (.nodeSet ⟨B⟩) w ∧ A ≠ B := by
  refine ⟨?_, ?_, ?_⟩
  · intro f L σ hview hL start before test after c I size? s hc hs
    exact Expr.selectsAlike_descendant hview hL start before test after hc hs
  · intro f k t e target ht hwf h hlibrary hbindings hview hnode hroot head front test after text
      text' found
    have hmem : (target.setting e).view ∈
        [f.indexed, f.structural, f.withoutNamespaces, f.linked] := hview.mem
    have hL : e.library.Steady (target.setting e) := hlibrary ▸ Registry.steady_core _
    have halike := fun start before τ later => Expr.selectsAlike_descendant hmem hL start before τ
      later (c := .alone target.node) (I := fun _ => True) (Eval.comes_pure 1) (s := .start) trivial
    constructor
    · refine Engine.reply_evaluateNodes_of_selectsAlike ht hwf hlibrary hbindings hview hnode hroot
        h fun expr hexpr => ?_
      obtain ⟨start, before, τ, later, hfront, hτ, hafter, rfl⟩ :=
        Expr.ofSyntax_double_slash_iff.1 hexpr
      exact ⟨_, Expr.ofSyntax_descendant_iff.2 ⟨start, before, τ, later, hfront, hτ, hafter, rfl⟩,
        (halike start before τ later).1⟩
    · refine Engine.reply_evaluateNodes_of_selectsAlike ht hwf hlibrary hbindings hview hnode hroot
        h fun expr hexpr => ?_
      obtain ⟨start, before, τ, later, hfront, hτ, hafter, rfl⟩ :=
        Expr.ofSyntax_descendant_iff.1 hexpr
      exact ⟨_,
        Expr.ofSyntax_double_slash_iff.2 ⟨start, before, τ, later, hfront, hτ, hafter, rfl⟩,
        (halike start before τ later).2⟩
  · obtain ⟨u, hlong⟩ := Expr.value_everythingByDescendants
    obtain ⟨w, hshort⟩ := Expr.value_everythingBelow
    exact ⟨.ofSample, .alone ⟨0, 0⟩, _, _, u, w, hlong, hshort, by decide⟩

/-- From the document of the sample, both paths select the same nodes below it.  The attributes of
all of them are answered in document order, by a double slash as by one step. -/
theorem descendant_abbreviation_sample :
    (∃ A B u w,
      (Expr.everythingByDescendants.meaning (.standard Registry.core.library .ofSample)).value
        (.alone ⟨0, 0⟩) .start = .ok (.nodeSet ⟨A⟩) u ∧
      (Expr.everythingBelow.meaning (.standard Registry.core.library .ofSample)).value
        (.alone ⟨0, 0⟩) .start = .ok (.nodeSet ⟨B⟩) w ∧ SameSet A B) ∧
    (Engine.new.reply (Engine.evaluateNodes
      (PathHead.absolute.tree "//node()/@*"
        [.descendant, .step none (.nodeType "node") [], .step (some "@") .wildcard []])
      .sample)).result = .ok [⟨0, 2⟩, ⟨0, 3⟩] ∧
    (Engine.new.reply (Engine.evaluateNodes
      (PathHead.absolute.tree "/descendant::node()/@*"
        [.step (some "descendant") (.nodeType "node") [], .step (some "@") .wildcard []])
      .sample)).result = .ok [⟨0, 2⟩, ⟨0, 3⟩] := by
  have hwf : Tree.sample.WellFormed := by decide
  obtain ⟨hset, hrequest, -⟩ := descendant_abbreviation
  have hlong : (Engine.new.reply (Engine.evaluateNodes
      (PathHead.absolute.tree "//node()/@*"
        [.descendant, .step none (.nodeType "node") [], .step (some "@") .wildcard []])
      .sample)).result = .ok [⟨0, 2⟩, ⟨0, 3⟩] := by decide +kernel
  refine ⟨?_, hlong, ?_⟩
  · obtain ⟨u, hvalue⟩ := Expr.value_everythingByDescendants
    obtain ⟨A, B, w, ⟨⟩, hB, hsame⟩ := (hset [.sample] Registry.core.library .ofSample
      List.mem_cons_self (Registry.steady_core _) .context [] (.nodeType .node) [] (.alone ⟨0, 0⟩)
      (fun _ => True) (some 1) .start (Eval.comes_pure 1) trivial).1 _ u hvalue
    exact ⟨_, B, u, w, hvalue, hB, hsame⟩
  · exact (hrequest [.sample] 0 .sample .new .sample rfl hwf .new rfl (by rintro p ⟨⟩) .indexed
      ⟨rfl, by decide⟩ (by simp [Target.sample]) .absolute [] (.nodeType "node")
      [.step (some "@") .wildcard []] _ _ _).1 hlong

end XPath
