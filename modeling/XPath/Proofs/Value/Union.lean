/-
Union is the union of sets.

The nodes of a tree have a strict order, so a list of different nodes that is in this order is known
from what is in it.  A union is such a list, with the nodes of the one set and of the other, and
what holds of sets holds of it: neither the order of the operands matters nor that of their nodes.
For expressions this needs operands that come to the same whichever of them is evaluated first.

* `View.Ranks.sort_congr` — sorting forgets the order that nodes were in;
* `NodeSet.mem_union`, `NodeSet.nodup_union` — what is in a union;
* `Meaning.comes_union` — what the union of two expressions comes to;
* `union_of_sets` — union adds nothing, repeats nothing, and has the laws of sets.
-/
import XPath.Proofs.Evaluation.Delivery
import XPath.Proofs.Tree.Ranking
import XPath.Tree.Sample

namespace XPath

/-! ### Sorting -/

/-- Lists of the same nodes, none of them repeated, are sorted into one list. -/
theorem View.Ranks.sort_congr {v : View} {Known : Node → Prop} {place : Node → Nat}
    (h : v.Ranks Known place) {xs ys : List Node} (hknown : ∀ n ∈ xs, Known n) (hxs : xs.Nodup)
    (hys : ys.Nodup) (hmem : ∀ n, n ∈ xs ↔ n ∈ ys) : v.sort xs = v.sort ys := by
  refine h.eq_of_pairwise (fun n hn => hknown n ((v.sort_perm xs).mem_iff.1 hn))
    (h.pairwise_sort hknown hxs) (h.pairwise_sort (fun n hn => hknown n ((hmem n).2 hn)) hys)
    fun n => ?_
  rw [(v.sort_perm xs).mem_iff, (v.sort_perm ys).mem_iff, hmem]

/-! ### Node-sets -/

namespace NodeSet

variable {v : View} {s t : NodeSet} {n : Node}

theorem mem_ofList {nodes : List Node} : n ∈ (ofList nodes).nodes ↔ n ∈ nodes :=
  mem_firstOccurrences

theorem nodup_ofList (nodes : List Node) : (ofList nodes).nodes.Nodup :=
  nodup_firstOccurrences nodes

/-- A union has the nodes of both sets and no others. -/
theorem mem_union : n ∈ (s.union v t).nodes ↔ n ∈ s.nodes ∨ n ∈ t.nodes := by
  rw [union, sorted, (v.sort_perm _).mem_iff, mem_ofList, List.mem_append]

theorem nodup_union : (s.union v t).nodes.Nodup :=
  (v.sort_perm _).nodup_iff.2 (nodup_ofList _)

end NodeSet

namespace View.Ranks

variable {v : View} {Known : Node → Prop} {place : Node → Nat} (h : v.Ranks Known place)
  {s t u : NodeSet}

include h

theorem pairwise_union (hst : ∀ n ∈ s.nodes ++ t.nodes, Known n) :
    (s.union v t).nodes.Pairwise fun a b => v.order a b = .lt :=
  h.pairwise_sort (fun n hn => hst n (NodeSet.mem_ofList.1 hn)) (NodeSet.nodup_ofList _)

/-- A union is what its nodes are sorted into, however they are listed. -/
theorem union_eq {w : NodeSet} (hst : ∀ n ∈ s.nodes ++ t.nodes, Known n) (hw : w.nodes.Nodup)
    (hmem : ∀ n, n ∈ w.nodes ↔ n ∈ s.nodes ∨ n ∈ t.nodes) : s.union v t = w.sorted v := by
  refine congrArg NodeSet.mk (h.sort_congr (fun n hn => hst n (NodeSet.mem_ofList.1 hn))
    (NodeSet.nodup_ofList _) hw fun n => ?_)
  rw [NodeSet.mem_ofList, List.mem_append, hmem]

theorem union_comm (hst : ∀ n ∈ s.nodes ++ t.nodes, Known n) : s.union v t = t.union v s :=
  h.union_eq hst (NodeSet.nodup_ofList (t.nodes ++ s.nodes)) fun n => by
    rw [NodeSet.mem_ofList, List.mem_append, or_comm]

theorem union_assoc (hstu : ∀ n ∈ s.nodes ++ t.nodes ++ u.nodes, Known n) :
    (s.union v t).union v u = s.union v (t.union v u) := by
  have hknown : ∀ n ∈ (s.union v t).nodes ++ u.nodes, Known n := fun n hn => hstu n (by
    rwa [List.mem_append, NodeSet.mem_union, ← List.mem_append, ← List.mem_append] at hn)
  refine h.union_eq hknown (NodeSet.nodup_ofList (s.nodes ++ (t.union v u).nodes)) fun n => ?_
  rw [NodeSet.mem_ofList, List.mem_append, NodeSet.mem_union, NodeSet.mem_union, or_assoc]

theorem union_self (hs : ∀ n ∈ s.nodes, Known n) (hnodup : s.nodes.Nodup) :
    s.union v s = s.sorted v :=
  h.union_eq (by simpa using hs) hnodup fun n => (or_self_iff).symm

end View.Ranks

/-! ### Expressions -/

/-- Of two options that are put together it does not matter which is looked at first. -/
theorem bind_map_comm {α β γ : Type} {a : Option α} {b : Option β} {f : α → β → γ}
    {g : β → α → γ} (h : ∀ x ∈ a, ∀ y ∈ b, f x y = g y x) :
    (a.bind fun x => b.map (f x)) = b.bind fun y => a.map (g y) := by
  cases a with
  | none => cases b <;> rfl
  | some x =>
    cases b with
    | none => rfl
    | some y => exact congrArg some (h x rfl y rfl)

/-- The node-set that a value is, if it is one. -/
def Value.nodeSet? : Value → Option NodeSet
  | .nodeSet s => some s
  | _ => none

namespace Meaning

variable {I : List Stage → Prop}

theorem comes_unionOperand (value : Value) : (unionOperand value).Comes I value.nodeSet? := by
  cases value with
  | nodeSet s => exact Eval.comes_pure s
  | string s => exact Eval.comes_throw _
  | number x => exact Eval.comes_throw _
  | boolean b => exact Eval.comes_throw _

theorem comes_operand {m : Meaning} {c : Context} {p : Option Value} (h : (m.value c).Comes I p) :
    Eval.Comes I (do unionOperand (← m.value c)) (p.bind Value.nodeSet?) :=
  Eval.comes_bind h fun value _ => comes_unionOperand value

/-- A union comes to the union of the node-sets that its operands come to, and to a failure if one
of the operands does or is no node-set. -/
theorem comes_union (i : Interpretation) {l r : Meaning} {c : Context} {p q : Option Value}
    (hl : (l.value c).Comes I p) (hr : (r.value c).Comes I q) :
    ((union i l r).value c).Comes I
      ((p.bind Value.nodeSet?).bind fun s => (q.bind Value.nodeSet?).map fun t =>
        Value.nodeSet (s.union i.setting.view t)) := by
  have heq : (union i l r).value c = (do
      let s ← (do unionOperand (← l.value c))
      let t ← (do unionOperand (← r.value c))
      return .nodeSet (s.union i.setting.view t)) := by
    simp only [union, ofValue, bind_assoc]
  rw [heq]
  exact Eval.comes_bind (comes_operand hl) fun s _ => Eval.comes_map (comes_operand hr)

/-- An operand that gives known nodes only comes to known nodes. -/
theorem known_of_comes {x : Eval Value} {p : Option Value} (hx : x.Comes I p) {s : State}
    (hs : I s.stages) {Known : Node → Prop} (hknown : x.Ensures (·.Among Known)) :
    ∀ A ∈ p.bind Value.nodeSet?, ∀ n ∈ A.nodes, Known n := by
  intro A hA
  obtain ⟨value, rfl, hvalue⟩ := Option.bind_eq_some_iff.1 hA
  obtain ⟨u, hu⟩ := hx.gives hs
  cases value with
  | nodeSet s =>
    cases hvalue
    exact hknown hu
  | string s => cases hvalue
  | number x => cases hvalue
  | boolean b => cases hvalue

/-- A union of operands that give known nodes comes to the same whichever operand is first. -/
theorem union_value_iff {i : Interpretation} {Known : Node → Prop} {place : Node → Nat}
    (h : i.setting.view.Ranks Known place) {l r : Meaning} {c : Context} {p q : Option Value}
    (hl : (l.value c).Comes I p) (hr : (r.value c).Comes I q)
    (hleft : (l.value c).Ensures (·.Among Known)) (hright : (r.value c).Ensures (·.Among Known))
    {s : State} (hs : I s.stages) (value : Value) :
    (∃ u, (union i l r).value c s = .ok value u) ↔
      ∃ u, (union i r l).value c s = .ok value u := by
  have hA := known_of_comes hl hs hleft
  have hB := known_of_comes hr hs hright
  have hcomm : ∀ A ∈ p.bind Value.nodeSet?, ∀ B ∈ q.bind Value.nodeSet?,
      Value.nodeSet (A.union i.setting.view B) = .nodeSet (B.union i.setting.view A) :=
    fun A hA' B hB' => congrArg Value.nodeSet (h.union_comm fun n hn =>
      (List.mem_append.1 hn).elim (hA A hA' n) (hB B hB' n))
  rw [(comes_union i hl hr).ok_iff hs, (comes_union i hr hl).ok_iff hs, bind_map_comm hcomm]

end Meaning

/-- In document order, the union of two sets of nodes of one well-formed tree has the nodes of both,
each of them once, and no others.  So union is commutative and associative, and a set with itself
makes the set in document order.  Between two expressions that select nodes of the tree, the union
comes to the same whichever stands first, a value or a failure. -/
theorem union_of_sets {f : Forest} {k : Nat} {t : Tree} (ht : f[k]? = some t) (hwf : t.WellFormed)
    {v : View} (hv : f.Shows t v) :
    (∀ A B : NodeSet, (∀ n ∈ A.nodes ++ B.nodes, t.HasAt k n) →
      (A.union v B).nodes.Nodup ∧
      (A.union v B).nodes.Pairwise (fun a b => v.order a b = .lt) ∧
      (∀ n, n ∈ (A.union v B).nodes ↔ n ∈ A.nodes ∨ n ∈ B.nodes) ∧
      A.union v B = B.union v A) ∧
    (∀ A B C : NodeSet, (∀ n ∈ A.nodes ++ B.nodes ++ C.nodes, t.HasAt k n) →
      (A.union v B).union v C = A.union v (B.union v C)) ∧
    (∀ A : NodeSet, (∀ n ∈ A.nodes, t.HasAt k n) → A.nodes.Nodup → A.union v A = A.sorted v) ∧
    ∀ (L : Library) (σ : Setting), σ.view = v → L.Steady σ →
      ∀ (l r : Expr) (c : Context) (I : List Stage → Prop) (size? : Option Nat),
      c.size.Comes I size? →
      (∀ e ∈ [l, r], ((e.meaning (.standard L σ)).value c).Ensures (·.Among (t.HasAt k))) →
      ∀ s : State, I s.stages → ∀ value : Value,
        (∃ u, ((Expr.union l r).meaning (.standard L σ)).value c s = .ok value u) ↔
          ∃ u, ((Expr.union r l).meaning (.standard L σ)).value c s = .ok value u := by
  have h := hv.ranks ht hwf
  refine ⟨fun A B hAB => ⟨NodeSet.nodup_union, h.pairwise_union hAB, fun n => NodeSet.mem_union,
    h.union_comm hAB⟩, fun A B C => h.union_assoc, fun A => h.union_self, ?_⟩
  rintro L σ rfl hL l r c I size? hc hoperands s hs value
  rw [Expr.meaning, Expr.meaning]
  exact Meaning.union_value_iff h ((Expr.steady_value hL l).comes hc)
    ((Expr.steady_value hL r).comes hc) (hoperands l (by simp)) (hoperands r (by simp)) hs value

/-- The paragraphs of the sample that a variable has, and the document: either union gives the
document first. -/
theorem union_of_sets_sample :
    (∃ u, ((Expr.union (.variableReference "v") (.path .root [])).meaning
        (.standard Registry.core.library .ofSample)).value (.alone ⟨0, 0⟩) .start =
      .ok (.nodeSet ⟨[⟨0, 0⟩, ⟨0, 1⟩, ⟨0, 8⟩]⟩) u) ∧
    ∃ u, ((Expr.union (.path .root []) (.variableReference "v")).meaning
        (.standard Registry.core.library .ofSample)).value (.alone ⟨0, 0⟩) .start =
      .ok (.nodeSet ⟨[⟨0, 0⟩, ⟨0, 1⟩, ⟨0, 8⟩]⟩) u := by
  obtain ⟨-, -, -, hunion⟩ := union_of_sets (f := [.sample]) (k := 0) rfl (by decide) .indexed
  have hset : (NodeSet.ofList [⟨0, 1⟩, ⟨0, 8⟩, ⟨0, 1⟩]).union (Forest.indexed [.sample])
      ⟨[⟨0, 0⟩]⟩ = ⟨[⟨0, 0⟩, ⟨0, 1⟩, ⟨0, 8⟩]⟩ := by decide +kernel
  have hleft : ∃ u, ((Expr.union (.variableReference "v") (.path .root [])).meaning
        (.standard Registry.core.library .ofSample)).value (.alone ⟨0, 0⟩) .start =
      .ok (.nodeSet ⟨[⟨0, 0⟩, ⟨0, 1⟩, ⟨0, 8⟩]⟩) u := ⟨.start, hset ▸ rfl⟩
  refine ⟨hleft, (hunion Registry.core.library .ofSample rfl (Registry.steady_core _) _ _ _
    (fun _ => True) _ (Eval.comes_pure 1) ?_ _ trivial _).1 hleft⟩
  have hvariable : ∀ n ∈ [(⟨0, 1⟩ : Node), ⟨0, 8⟩, ⟨0, 1⟩], Tree.sample.HasAt 0 n := by
    unfold Tree.HasAt
    decide
  have hroot : ∀ n ∈ [(⟨0, 0⟩ : Node)], Tree.sample.HasAt 0 n := by
    unfold Tree.HasAt
    decide
  refine List.forall_mem_cons.2 ⟨Eval.ensures_pure (Value.among_ofNodes hvariable),
    List.forall_mem_cons.2 ⟨Eval.ensures_pure (a := Value.nodeSet ⟨[⟨0, 0⟩]⟩) hroot, by simp⟩⟩

end XPath
