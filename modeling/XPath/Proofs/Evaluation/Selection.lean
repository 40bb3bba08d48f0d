/-
Paths that select the same.

Following steps in two views that show the same of all known nodes leads from known nodes to known
nodes, the same on both sides.  The last step marks every node that it passes on and passes on no
node that it has marked, so no node is arrived at twice.

* `Progress.Sound` — what is true of the nodes arrived at;
* `Path.follow_agree`, `Path.collect_agree` — following steps;
* `Accord.interpretations_agreement` — the evaluations of the engine in both views are in accord;
* `Shape.evaluate_agree` — so are the results that a caller can ask for.
-/
import XPath.Proofs.Evaluation.Agreement
import XPath.Proofs.Library.Accord
import XPath.Query.Shape

namespace XPath

namespace Path

/-- What has been found is known, and it has been marked by the last step and so is there once. -/
structure Progress.Sound (Known : Node → Prop) (p : Progress) : Prop where
  nodup : p.found.Nodup
  known : ∀ n ∈ p.found, Known n
  marked : ∀ n ∈ p.found, (0, n) ∈ p.seen

theorem Progress.Sound.mark {Known : Node → Prop} {p : Progress} (h : p.Sound Known)
    (x : Nat × Node) : Progress.Sound Known { p with seen := x :: p.seen } :=
  ⟨h.nodup, h.known, fun n hn => List.mem_cons_of_mem x (h.marked n hn)⟩

/-- A node that the last step has just marked is arrived at. -/
theorem Progress.Sound.arrive {Known : Node → Prop} {p : Progress} (h : p.Sound Known) {n : Node}
    (hn : Known n) (hnew : (0, n) ∉ p.seen) :
    Progress.Sound Known ⟨(0, n) :: p.seen, p.found ++ [n]⟩ where
  nodup := by
    rw [List.nodup_append]
    refine ⟨h.nodup, List.nodup_singleton n, ?_⟩
    rintro m hm _ hmn rfl
    exact hnew (h.marked n (List.mem_singleton.1 hmn ▸ hm))
  known := List.forall_mem_append.2 ⟨h.known, by simpa using hn⟩
  marked := by
    intro m hm
    rcases List.mem_append.1 hm with hm | hm
    · exact List.mem_cons_of_mem _ (h.marked m hm)
    · rw [List.mem_singleton.1 hm]
      exact List.mem_cons_self

variable {σ : Setting} {w : View} {Known : Node → Prop} {h : σ.Shared w Known}
  {J : List Stage → Prop} (once : Bool)

/-- Strides in accord are followed alike, and arrive nowhere twice. -/
theorem follow_agree {strides strides' : List Stride}
    (hs : List.Forall₂ (Accord.agreement h).Strides strides strides') (hne : strides ≠ [])
    {n : Node} (hn : Known n) {p : Progress} (hp : p.Sound Known) :
    (follow once strides n p).Agree J (Progress.Sound Known) (follow once strides' n p) := by
  induction hs generalizing n p with
  | nil => exact (hne rfl).elim
  | @cons stride stride' rest rest' hstride hrest ih =>
    have hknown : ∀ m ∈ stride.candidates n, Known m := fun m hm => hstride.known hn hm
    rw [follow, follow, ← hstride.candidates hn]
    refine (Candidates.agree_each hknown hstride.predicates
      (Q := fun _ p => Progress.Sound Known p) (fun seen m p hm hp => ?_) hp).mono ?_
    · have hm := hknown m (hm.subset List.mem_append_cons_self)
      rw [← hrest.length_eq]
      by_cases hseen : (rest.length, m) ∈ p.seen
      · rw [if_pos hseen, if_pos hseen]
        exact Eval.agree_pure hp
      · rw [if_neg hseen, if_neg hseen]
        cases hrest with
        | nil => exact Eval.agree_pure (hp.arrive hm hseen)
        | cons _ _ => exact ih (List.cons_ne_nil _ _) hm (hp.mark _)
    · rintro p ⟨-, -, hp⟩
      exact hp

/-- Nodes that are known and all different. -/
def Fine (Known : Node → Prop) (nodes : List Node) : Prop := nodes.Nodup ∧ ∀ n ∈ nodes, Known n

theorem Fine.sublist {xs ys : List Node} (h : Fine Known ys) (hxs : xs.Sublist ys) :
    Fine Known xs :=
  ⟨hxs.nodup h.1, fun n hn => h.2 n (hxs.subset hn)⟩

theorem Fine.perm {xs ys : List Node} (h : Fine Known ys) (hxs : xs.Perm ys) : Fine Known xs :=
  ⟨hxs.nodup_iff.2 h.1, fun n hn => h.2 n (hxs.mem_iff.1 hn)⟩

variable {nodes : List Node} (hnodes : Fine Known nodes) {ps ps' : List Predicate}
  (hp : List.Forall₂ (Accord.agreement h).Predicates ps ps') {strides strides' : List Stride}
  (hs : List.Forall₂ (Accord.agreement h).Strides strides strides')

include hnodes hp hs

theorem collect_agree :
    (collect once nodes ps strides).Agree J (Fine Known) (collect once nodes ps' strides') := by
  by_cases hne : strides = []
  · subst hne
    cases hs
    -- Without a step to follow the nodes that the predicates keep are arrived at.
    refine Eval.agree_map (Candidates.agree_each hnodes.2 hp (Q := fun seen p => p.found = seen)
      (fun seen n p _ hp => ?_) rfl) ?_
    · exact Eval.agree_pure (congrArg (· ++ [n]) hp)
    · rintro p ⟨seen, hseen, hp⟩
      exact hp ▸ hnodes.sublist hseen
  · refine Eval.agree_map (Candidates.agree_each hnodes.2 hp
      (Q := fun _ p => Progress.Sound Known p) (fun seen n p hn hp => ?_) ?_) ?_
    · exact follow_agree once hs hne (hnodes.2 n (hn.subset List.mem_append_cons_self)) hp
    · exact ⟨List.nodup_nil, by simp, by simp⟩
    · rintro p ⟨-, -, hp⟩
      exact ⟨hp.nodup, hp.known⟩

end Path

/-- Paths select the same in two views that share a setting. -/
theorem Accord.follows_agreement {σ : Setting} {w : View} {Known : Node → Prop}
    (h : σ.Shared w Known) : (agreement h).Follows where
  single hn := ⟨List.nodup_singleton _, List.forall_mem_singleton.2 hn⟩
  sorted {s} hs := Path.Fine.perm hs (σ.view.sort_perm s.nodes)
  collect once _ hnodes _ _ hp _ _ hs := Path.collect_agree once hnodes hp hs

/-- The evaluations of the engine in two views that share a setting are in accord. -/
theorem Accord.interpretations_agreement {σ : Setting} {w : View} {Known : Node → Prop}
    (h : σ.Shared w Known) :
    (agreement h).Interpretations (.standard Registry.core.library σ)
      (.standard Registry.core.library { σ with view := w }) :=
  (follows_agreement h).interpretations libraries_core h.bindings

/-- A context of a known node is in accord with itself, however its size is counted. -/
theorem Accord.contexts_agreement {σ : Setting} {w : View} {Known : Node → Prop}
    (h : σ.Shared w Known) {c : Context} (hc : Known c.node) :
    (agreement h).Contexts (fun _ => True) c c := by
  refine ⟨rfl, hc, rfl, fun s _ => ⟨rfl, ?_⟩⟩
  cases c.size s <;> simp [Ends]

/-- An expression means the same in two views that share a setting. -/
theorem Expr.agree {σ : Setting} {w : View} {Known : Node → Prop} (h : σ.Shared w Known)
    (e : Expr) :
    (Accord.agreement h).Meanings (e.meaning (.standard Registry.core.library σ))
      (e.meaning (.standard Registry.core.library { σ with view := w })) :=
  Accord.meanings_meaning (Accord.interpretations_agreement h) e

/-! ### Requests -/

namespace Shape

variable {σ : Setting} {w : View} {Known : Node → Prop} (h : σ.Shared w Known)
  {J : List Stage → Prop}

/-- A value that must be a node-set is one on both sides or on neither. -/
theorem nodes_agree {v : Value} (hv : (Accord.agreement h).Good v) :
    (nodes v).Agree J (fun s => Path.Fine Known s.nodes) (nodes v) := by
  cases v with
  | nodeSet s => exact Eval.agree_pure hv
  | string s => exact Eval.agree_throw _
  | number x => exact Eval.agree_throw _
  | boolean b => exact Eval.agree_throw _

/-- What is asked of an expression is the same in both views. -/
theorem evaluate_agree (shape : Shape) (e : Expr) {n : Node} (hn : Known n) :
    (shape.evaluate (.standard Registry.core.library σ) e n).Agree J
      (Accord.agreement h).Good
      (shape.evaluate (.standard Registry.core.library { σ with view := w }) e n) := by
  have hc : (Accord.agreement h).Contexts J (.alone n) (.alone n) := Accord.contexts_alone hn
  have hm := Expr.agree h e
  have hvalue := hm.value hc
  cases shape with
  | any => exact hvalue
  | string =>
    refine Eval.agree_bind hvalue fun v hv => ?_
    show Eval.Agree J _ (pure (Value.string (v.toText σ.view))) (pure (Value.string (v.toText w)))
    rw [show v.toText σ.view = v.toText w from Accord.toText_eq hv]
    exact Eval.agree_pure (Accord.good_text _)
  | number =>
    exact Eval.agree_bind hvalue fun v hv => Eval.agree_map
      ((Accord.interpretations_agreement h).numberOf hc hv) fun x _ => Accord.good_number x
  | boolean => exact Eval.agree_map (hm.truth hc) fun b _ => Accord.good_boolean b
  | nodeSet =>
    exact Eval.agree_bind hvalue fun v hv => Eval.agree_map (nodes_agree h hv) fun s hs => hs
  | ordered =>
    refine Eval.agree_bind hvalue fun v hv => Eval.agree_bind (nodes_agree h hv) fun s hs => ?_
    show Eval.Agree J _ (pure (Value.nodeSet ⟨σ.view.sort s.nodes⟩))
      (pure (Value.nodeSet ⟨w.sort s.nodes⟩))
    rw [← h.alike.sort_eq hs.2]
    exact Eval.agree_pure (hs.perm (σ.view.sort_perm s.nodes))
  | first =>
    refine Eval.agree_bind hvalue fun v hv => Eval.agree_bind (nodes_agree h hv) fun s hs => ?_
    obtain ⟨heq, hknown⟩ := h.alike.first?_eq hs.2
    show Eval.Agree J _ (pure (Value.nodeSet ⟨(σ.view.first? s.nodes).toList⟩))
      (pure (Value.nodeSet ⟨(w.first? s.nodes).toList⟩))
    rw [← heq]
    refine Eval.agree_pure ⟨?_, fun m hm => hknown m (Option.mem_toList.1 hm)⟩
    show (σ.view.first? s.nodes).toList.Nodup
    cases σ.view.first? s.nodes <;> simp

end Shape

end XPath
