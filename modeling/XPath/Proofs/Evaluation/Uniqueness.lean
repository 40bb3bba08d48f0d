/-
No node is in a node-set twice.

A node-set is a list of nodes, and nothing in its type keeps a node from being there twice: paths
mark the nodes that they pass on, unions leave out repetitions, and `id` takes descendants, each of
which is met once.  What predicates keep of candidates that are all different is all different.

* `Candidates.Reached` — the stages that reads of what predicates keep come to;
* `Stage.exists_orderly_of_reached` — each of them keeps candidates in their order;
* `Setting.shared_self` — what has no node twice to start from;
* `node_sets_unique` — so are the nodes of every node-set that an expression gives.
-/
import XPath.Proofs.Evaluation.Selection
import XPath.Proofs.Tree.Cursor
import XPath.Tree.Sample

namespace XPath

/-! ### Reads of candidates -/

/-- The stages that reads of what predicates, last to first, keep of candidates come to. -/
inductive Candidates.Reached (nodes : List Node) (ps : List Predicate) : List Stage → Prop
  | initial : Reached nodes ps (ps.map Stage.initial)
  | read {stages : List Stage} (h : Reached nodes ps stages) (stop : Option Nat)
      (log : List String) : Reached nodes ps ((read nodes ps stop).after ⟨log, stages⟩).stages

namespace Stage

variable {nodes K : List Node} {ps : List Predicate} {stages : List Stage}

/-- Every stage has kept candidates, in their order. -/
theorem Orderly.sublist_of_mem (h : Orderly nodes ps K stages) :
    ∀ stage ∈ stages, stage.kept.found.Sublist nodes := by
  induction ps generalizing K stages with
  | nil =>
    obtain ⟨-, rfl⟩ := h
    simp
  | cons p earlier ih =>
    obtain ⟨stage, rest, L, rfl, rfl, hrest, htakes⟩ := h
    exact List.forall_mem_cons.2 ⟨htakes.sublist.trans hrest.sublist, ih hrest⟩

/-- Reads leave the stages of predicates in order. -/
theorem exists_orderly_of_reached {σ : Setting} {w : View} {Known : Node → Prop}
    {h : σ.Shared w Known} (hnodes : ∀ n ∈ nodes, Known n)
    (hp : List.Forall₂ (Accord.agreement h).Predicates ps ps)
    (hstages : Candidates.Reached nodes ps stages) : ∃ K, Orderly nodes ps K stages := by
  induction hstages with
  | initial => exact orderly_initial nodes ps
  | @read stages _ stop log ih =>
    obtain ⟨K, hK⟩ := ih
    obtain ⟨-, hends⟩ := Candidates.read_agree hnodes hp stop K ⟨log, stages⟩ hK
    rw [Eval.after]
    cases hr : Candidates.read nodes ps stop ⟨log, stages⟩ with
    | error e t =>
      rw [hr] at hends
      obtain ⟨L, -, hL⟩ := hends
      exact ⟨L, hL⟩
    | ok found t =>
      rw [hr] at hends
      exact ⟨found, hends.2⟩

end Stage

/-! ### Settings -/

/-- A setting shares itself. -/
theorem Setting.shared_self {σ : Setting} (hd : (σ.view.descendants σ.document).Nodup)
    (hb : ∀ p ∈ σ.bindings, p.2.Unique) : σ.Shared σ.view fun _ => True where
  alike := .refl σ.view
  document := trivial
  root := trivial
  nodup_descendants := hd
  bindings := by
    rintro ⟨name, v⟩ hp
    refine ⟨hb _ hp, ?_⟩
    cases v <;> simp [Value.Among]

/-- The predicates that expressions make are in accord with themselves. -/
theorem Accord.predicates_agreement {σ : Setting} (h : σ.Shared σ.view fun _ => True)
    (es : List Expr) :
    List.Forall₂ (agreement h).Predicates
      (es.map fun e => (e.meaning (.standard Registry.core.library σ)).predicate)
      (es.map fun e => (e.meaning (.standard Registry.core.library σ)).predicate) :=
  List.forall₂_map_left_iff.2 (List.forall₂_map_right_iff.2
    (List.forall₂_same.2 fun e _ => (Expr.agree h e).predicate))

/-- A value that an action gives in accord with itself has no node twice. -/
theorem Eval.Agree.ensures_unique {σ : Setting} {h : σ.Shared σ.view fun _ => True}
    {x : Eval Value} (hx : x.Agree (fun _ => True) (Accord.agreement h).Good x) :
    x.Ensures Value.Unique := by
  intro s v u hv
  obtain ⟨-, hends⟩ := hx s trivial
  rw [hv] at hends
  exact hends.1.1

/-- With the core functions, and variables whose node-sets have no node twice, no value of an
expression has a node twice.  This is so in every context, and so inside of other expressions as
well, and for every kind of result that a caller can ask for.  What each of several predicates, last
to first, has kept of candidates that are all different is all different at any time, and so is what
a read of it gives. -/
theorem node_sets_unique {f : Forest} {σ : Setting}
    (hview : σ.view ∈ [f.indexed, f.structural, f.withoutNamespaces, f.linked]) {t : Tree}
    (ht : f[σ.document.tree]? = some t) (hb : ∀ p ∈ σ.bindings, p.2.Unique) :
    (∀ (e : Expr) (c : Context),
      ((e.meaning (.standard Registry.core.library σ)).value c).Ensures Value.Unique) ∧
    (∀ (shape : Shape) (e : Expr) (n : Node),
      (shape.evaluate (.standard Registry.core.library σ) e n).Ensures Value.Unique) ∧
    ∀ (es : List Expr) (nodes : List Node) (stages : List Stage), nodes.Nodup →
      Candidates.Reached nodes
        (es.map fun e => (e.meaning (.standard Registry.core.library σ)).predicate) stages →
      (∀ stage ∈ stages, stage.kept.found.Nodup) ∧
      ∀ stop log found u, Candidates.read nodes
          (es.map fun e => (e.meaning (.standard Registry.core.library σ)).predicate) stop
          ⟨log, stages⟩ = .ok found u → found.Nodup := by
  have hpresents := Forest.presents_of_mem ht hview
  have h := Setting.shared_self (hpresents.nodup_descendants σ.document.id) hb
  refine ⟨?_, ?_, ?_⟩
  · intro e c
    have hc : (Accord.agreement h).Contexts (fun _ => True) c c := by
      refine ⟨rfl, trivial, rfl, fun s _ => ⟨rfl, ?_⟩⟩
      cases c.size s <;> simp [Ends]
    exact Eval.Agree.ensures_unique ((Expr.agree h e).value hc)
  · intro shape e n
    exact Eval.Agree.ensures_unique (Shape.evaluate_agree h shape e trivial)
  · intro es nodes stages hnodes hstages
    have hp := Accord.predicates_agreement h es
    have hknown : ∀ n ∈ nodes, True := fun _ _ => trivial
    obtain ⟨K, hK⟩ := Stage.exists_orderly_of_reached hknown hp hstages
    refine ⟨fun stage hstage => (hK.sublist_of_mem stage hstage).nodup hnodes, ?_⟩
    intro stop log found u hr
    obtain ⟨-, hends⟩ := Candidates.read_agree hknown hp stop K ⟨log, stages⟩ hK
    rw [hr] at hends
    exact hends.2.sublist.nodup hnodes

/-- The sample, with a variable made from a list that has its first paragraph twice. -/
def Setting.ofSample : Setting :=
  { Setting.ofTree .sample with bindings := [("v", .ofNodes [⟨0, 1⟩, ⟨0, 8⟩, ⟨0, 1⟩])] }

/-- The document is above both paragraphs and is selected once, and the second paragraph is picked
once. -/
theorem node_sets_unique_sample :
    (∀ p ∈ Setting.ofSample.bindings, p.2.Unique) ∧
    (((Expr.path (.filter (.variableReference "v") [])
        [⟨.ancestorOrSelf, .nodeType .node, []⟩]).meaning
      (.standard Registry.core.library .ofSample)).value (.alone ⟨0, 0⟩)).Ensures Value.Unique ∧
    ∀ found u, Candidates.read [⟨0, 1⟩, ⟨0, 8⟩]
        ([.number 2].map fun e => (Expr.meaning (.standard Registry.core.library .ofSample)
          e).predicate) none ⟨[], [Stage.initial (.position 2)]⟩ = .ok found u → found.Nodup := by
  have hb : ∀ p ∈ Setting.ofSample.bindings, p.2.Unique := by
    rintro p (_ | ⟨_, ⟨⟩⟩)
    exact Value.unique_ofNodes _
  obtain ⟨hvalue, -, hkept⟩ := node_sets_unique (f := [.sample]) (σ := .ofSample)
    List.mem_cons_self rfl hb
  obtain ⟨-, hread⟩ := hkept [.number 2] [⟨0, 1⟩, ⟨0, 8⟩] _ (by decide) .initial
  exact ⟨hb, hvalue _ _, hread none []⟩

end XPath
