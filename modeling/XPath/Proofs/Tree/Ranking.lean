/-
Strict order.

A view of a well-formed tree gives each of its nodes a place of its own, and compares the nodes by
their places.  So nodes that are all different have one order and no other: sorting finds it, and
the node that comes first in document order is where it starts.

* `View.Ranks` — nodes are compared by places that tell them apart;
* `View.Ranks.eq_of_pairwise` — a list in strict order is known from its members;
* `View.Ranks.pairwise_sort`, `View.Ranks.first?_eq` — sorting, and the first node;
* `Forest.Shows.ranks` — the nodes of a well-formed tree are ranked;
* `Forest.Shows.pairwise_walk` — walks on `preceding` and `precedingSibling` go back from the node.
-/
import XPath.Proofs.Evaluation.Indifference
import XPath.Proofs.Tree.Sorting

namespace XPath

/-- The nodes that satisfy `Known` are compared by places that tell them apart. -/
structure View.Ranks (v : View) (Known : Node → Prop) (place : Node → Nat) : Prop where
  order_eq : ∀ {a b}, Known a → Known b → v.order a b = compare (place a) (place b)
  eq_of_place_eq : ∀ {a b}, Known a → Known b → place a = place b → a = b

namespace View.Ranks

variable {v : View} {Known : Node → Prop} {place : Node → Nat} (h : v.Ranks Known place)
  {nodes : List Node}

include h

theorem order_lt_iff {a b : Node} (ha : Known a) (hb : Known b) :
    v.order a b = .lt ↔ place a < place b := by
  rw [h.order_eq ha hb, Nat.compare_eq_lt]

/-- Lists of the same nodes that are in strict order are one list. -/
theorem eq_of_pairwise {xs ys : List Node} (hknown : ∀ n ∈ xs, Known n)
    (hxs : xs.Pairwise fun a b => v.order a b = .lt)
    (hys : ys.Pairwise fun a b => v.order a b = .lt) (hmem : ∀ n, n ∈ xs ↔ n ∈ ys) : xs = ys := by
  have hknown' : ∀ n ∈ ys, Known n := fun n hn => hknown n ((hmem n).2 hn)
  -- A node does not come before itself, and of two nodes only one comes before the other.
  have hnodup : ∀ zs : List Node, (∀ n ∈ zs, Known n) →
      (zs.Pairwise fun a b => v.order a b = .lt) → zs.Nodup := fun zs hzs hlt =>
    hlt.imp_of_mem fun ha hb hab heq =>
      Nat.ne_of_lt ((h.order_lt_iff (hzs _ ha) (hzs _ hb)).1 hab) (congrArg place heq)
  refine List.Perm.eq_of_pairwise (fun a b ha hb hab hba => ?_) hxs hys
    ((List.perm_ext_iff_of_nodup (hnodup xs hknown hxs) (hnodup ys hknown' hys)).2 hmem)
  have ha := hknown a ha
  have hb := hknown' b hb
  exact (Nat.lt_asymm ((h.order_lt_iff ha hb).1 hab) ((h.order_lt_iff hb ha).1 hba)).elim

variable (hnodes : ∀ n ∈ nodes, Known n)

include hnodes

theorem order_eq_of_mem :
    ∀ a ∈ nodes, ∀ b ∈ nodes, v.order a b = compare (place a) (place b) :=
  fun a ha b hb => h.order_eq (hnodes a ha) (hnodes b hb)

/-- Different nodes are sorted into strict order. -/
theorem pairwise_sort (hnodup : nodes.Nodup) :
    (v.sort nodes).Pairwise fun a b => v.order a b = .lt := by
  have hperm := v.sort_perm nodes
  have hdifferent : (v.sort nodes).Pairwise (· ≠ ·) := hperm.nodup_iff.2 hnodup
  refine ((sorted_sort (h.order_eq_of_mem hnodes)).and hdifferent).imp_of_mem ?_
  rintro a b ha hb ⟨hle, hne⟩
  have ha := hnodes a (hperm.mem_iff.1 ha)
  have hb := hnodes b (hperm.mem_iff.1 hb)
  have hplace := fun heq => hne (h.eq_of_place_eq ha hb heq)
  exact (h.order_lt_iff ha hb).2 (Nat.lt_of_le_of_ne hle hplace)

/-- The first node in document order is the one that sorting puts first. -/
theorem first?_eq : v.first? nodes = (v.sort nodes).head? := by
  have hperm := v.sort_perm nodes
  cases hsort : v.sort nodes with
  | nil =>
    rw [hsort] at hperm
    obtain rfl := hperm.nil_eq
    rfl
  | cons a rest =>
    obtain ⟨m, hm⟩ : ∃ m, v.first? nodes = some m := by
      cases nodes with
      | nil => cases hsort
      | cons => exact ⟨_, rfl⟩
    obtain ⟨hmem, hle⟩ := le_of_first? (h.order_eq_of_mem hnodes) hm
    have hsorted := sorted_sort (h.order_eq_of_mem hnodes)
    rw [hsort] at hperm hsorted
    have ha : a ∈ nodes := hperm.mem_iff.1 List.mem_cons_self
    -- Each of the two has no other node before it.
    have hplace : place a ≤ place m := by
      rcases List.mem_cons.1 (hperm.mem_iff.2 hmem) with rfl | hrest
      · exact Nat.le_refl _
      · exact (List.pairwise_cons.1 hsorted).1 m hrest
    rw [hm, h.eq_of_place_eq (hnodes m hmem) (hnodes a ha) (Nat.le_antisymm (hle a ha) hplace)]
    rfl

end View.Ranks

namespace Forest.Shows

variable {f : Forest} {v : View} {k : Nat} {t : Tree}

/-- A view that leaves out nothing of a well-formed tree ranks its nodes. -/
theorem ranks (hv : f.Shows t v) (ht : f[k]? = some t) (hwf : t.WellFormed) :
    v.Ranks (t.HasAt k) fun n => (t.preorder 0).idxOf n.id where
  order_eq := by
    rintro ⟨_, i⟩ ⟨_, j⟩ ⟨rfl, hi⟩ ⟨hk, hj⟩
    obtain rfl : _ = _ := hk
    rw [hv.order_eq ht hwf hi hj, (hv.depicts ht).compareByAncestry_eq hi hj]
  eq_of_place_eq := by
    rintro ⟨_, i⟩ ⟨_, j⟩ ⟨rfl, hi⟩ ⟨hk, hj⟩ hplace
    obtain rfl : _ = _ := hk
    exact congrArg (Node.mk _) ((List.idxOf_inj (Tree.mem_preorder_zero hi)).1 hplace)

variable (hv : f.Shows t v) (ht : f[k]? = some t) (hwf : t.WellFormed)

include hv ht hwf

/-- Nodes that are listed in document order are in document order, either way they are compared. -/
theorem pairwise_of_sublist {xs : List Nat} (hxs : xs.Sublist (t.preorder 0)) :
    xs.Pairwise fun a b => v.order ⟨k, a⟩ ⟨k, b⟩ = .lt ∧ v.order ⟨k, b⟩ ⟨k, a⟩ = .gt := by
  have hprecedes := (hv.depicts ht).precedes_preorder (i := 0) (by simp [Tree.size])
  refine (hprecedes.sublist hxs).imp_of_mem ?_
  intro a b ha hb hab
  have ha := Tree.lt_size_of_mem_preorder (i := 0) (by simp [Tree.size]) (hxs.subset ha)
  have hb := Tree.lt_size_of_mem_preorder (i := 0) (by simp [Tree.size]) (hxs.subset hb)
  rw [hv.order_eq ht hwf ha hb, hv.order_eq ht hwf hb ha]
  exact hab

/-- A walk on an axis whose order is restored goes back from its node. -/
theorem pairwise_walk {axis : Axis} (haxis : axis.restoresOrder = true) {n : Node}
    (hn : t.HasAt k n) (root : Node) :
    (n :: v.walk axis n root).Pairwise fun a b => v.order a b = .gt := by
  obtain ⟨tree, i⟩ := n
  obtain ⟨rfl, hi⟩ := hn
  have hback := hv.pairwise_of_sublist ht hwf (Tree.axis_append_sublist hwf hi tree root haxis)
  rw [← List.reverse_cons, List.pairwise_reverse] at hback
  rw [(hv.depicts ht).walk_eq hwf hi, ← List.map_cons (f := Node.mk _), List.pairwise_map]
  exact hback.imp And.right

/-- Every walk from a node of the tree stays in it. -/
theorem hasAt_walk {axis : Axis} {n m : Node} (hn : t.HasAt k n) {root : Node}
    (hm : m ∈ v.walk axis n root) : t.HasAt k m := by
  obtain ⟨_, i⟩ := n
  obtain ⟨rfl, hi⟩ := hn
  rw [(hv.depicts ht).walk_eq hwf hi] at hm
  obtain ⟨j, hj, rfl⟩ := List.mem_map.1 hm
  exact ⟨rfl, Tree.lt_size_of_mem_axis hwf hi _ root hj⟩

end Forest.Shows

end XPath
