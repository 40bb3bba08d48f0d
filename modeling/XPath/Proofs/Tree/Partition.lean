/-
The axes take a document apart.

Each node is on one of the axes from a node: it is the node itself, above or below it, after or
before it.  An attribute or a namespace node has nothing below it, and what is below its owner
counts as after it.

* `View.Presents.following_eq_later`, `View.Presents.preceding_eq_earlier` — all that is after a
  node, and all that is before it;
* `Tree.ordinary_perm` — the parts of a tree around a node are its nodes;
* `axes_partition` — each node is on one of the axes, and on it once.
-/
import XPath.Proofs.Tree.Walks

namespace XPath

/-! ### The whole document -/

namespace Tree

variable {t : Tree} {i k : Nat} {root : Node} (hwf : t.WellFormed) (hi : i < t.size)
  (hroot : t.Unmet k root)

include hwf hi hroot

/-- Within a root that is not met a walk comes to all tops after its start. -/
theorem topsAfter_eq_later : t.topsAfter k root i = t.later (t.anchor i) :=
  reached_eq_self (visits_later t) hwf (anchor_mem_ordinary hwf hi) hroot

/-- Within a root that is not met a walk comes to all tops before its start. -/
theorem topsBefore_eq_earlier : t.topsBefore k root i = t.earlier (t.anchor i) :=
  reached_eq_self (visits_earlier t) hwf (anchor_mem_ordinary hwf hi) hroot

end Tree

namespace View.Presents

variable {v : View} {k i : Nat} {t : Tree} {root : Node} (h : v.Presents k t)
  (hwf : t.WellFormed) (hi : i < t.size) (hroot : t.Unmet k root)

include h hwf hi hroot

/-- All that comes after a node. -/
theorem following_eq_later : v.following ⟨k, i⟩ root =
    (t.besides i ++ (t.later (t.anchor i)).flatMap t.subtree).map (Node.mk k) := by
  rw [h.following_eq hwf hi, Tree.axis, Tree.topsAfter_eq_later hwf hi hroot]

/-- All that comes before a node, nearest first. -/
theorem preceding_eq_earlier : v.preceding ⟨k, i⟩ root =
    ((t.earlier (t.anchor i)).flatMap fun j => (t.subtree j).reverse).map (Node.mk k) := by
  rw [h.preceding_eq hwf hi, Tree.axis, Tree.topsBefore_eq_earlier hwf hi hroot]

end View.Presents

/-- What is on the axes from an ordinary node, taken together. -/
theorem Tree.ordinary_perm {t : Tree} {i : Nat} (hwf : t.WellFormed) (hi : i ∈ t.ordinary) :
    (i :: (t.path i).tail ++ (t.children i).flatMap t.subtree ++ (t.later i).flatMap t.subtree ++
      (t.earlier i).flatMap fun j => (t.subtree j).reverse).Perm t.ordinary := by
  refine List.Perm.trans (List.perm_iff_count.2 fun j => ?_)
    ((subtree_perm hwf hi).symm.trans (subtree_zero_perm hwf))
  have hreverse := (List.Perm.flatMap_left (t.earlier i) fun j _ =>
    List.reverse_perm (t.subtree j)).count_eq j
  rw [subtree_eq t i]
  simp only [List.cons_append, List.count_append, List.count_cons] at *
  omega

/-- In a well-formed tree the node, what is above it, below it, after it and before it are all nodes
that are neither attributes nor namespace nodes, each of them once.  From an attribute or a
namespace node they are above, after or before it, and nothing is below it. -/
theorem axes_partition {f : Forest} {k : Nat} {t : Tree} (ht : f[k]? = some t)
    (hwf : t.WellFormed) {v : View}
    (hv : v ∈ [f.indexed, f.structural, f.withoutNamespaces, f.linked]) {i : Nat}
    (hi : i < t.size) :
    ((t.kind i).isChild = true →
      (v.walk .self ⟨k, i⟩ ⟨k, 0⟩ ++ v.walk .ancestor ⟨k, i⟩ ⟨k, 0⟩ ++
        v.walk .descendant ⟨k, i⟩ ⟨k, 0⟩ ++ v.walk .following ⟨k, i⟩ ⟨k, 0⟩ ++
        v.walk .preceding ⟨k, i⟩ ⟨k, 0⟩).Perm (t.ordinary.map (Node.mk k))) ∧
    ((t.kind i).isChild = false →
      (v.walk .ancestor ⟨k, i⟩ ⟨k, 0⟩ ++ v.walk .following ⟨k, i⟩ ⟨k, 0⟩ ++
        v.walk .preceding ⟨k, i⟩ ⟨k, 0⟩).Perm (t.ordinary.map (Node.mk k)) ∧
      v.walk .descendant ⟨k, i⟩ ⟨k, 0⟩ = []) := by
  -- All that matters of the view is that it presents the tree.
  have h : v.Presents k t := Forest.presents_of_mem ht hv
  simp only [View.walk]
  rw [h.ancestors_eq hi, h.descendants_eq, h.following_eq_later hwf hi (t.unmet_document k),
    h.preceding_eq_earlier hwf hi (t.unmet_document k)]
  refine ⟨fun hk => ?_, fun hk => ⟨?_, ?_⟩⟩
  · rw [Tree.anchor_of_isChild hk, Tree.besides, if_pos hk]
    simpa using (Tree.ordinary_perm hwf (Tree.mem_ordinary.2 ⟨hi, hk⟩)).map (Node.mk k)
  · -- The document is an ordinary node, so an attribute or a namespace node has an owner.
    have hzero : i ≠ 0 := by rintro rfl; cases hk
    obtain ⟨owner, ho⟩ := Tree.exists_parent? hi hzero
    rw [Tree.besides, if_neg (by simp [hk]), Tree.anchor_of_attached hk ho,
      Tree.path_of_some ho, List.tail_cons, Tree.path_eq t owner]
    simpa using (Tree.ordinary_perm hwf (Tree.owner_mem_ordinary hwf hi ho)).map (Node.mk k)
  · -- Owning a child would make it an ordinary node.
    have hnone : t.children i = [] := List.eq_nil_iff_forall_not_mem.2 fun c hc => by
      have := hwf c i (Tree.mem_children.1 hc).1
      rw [hk] at this
      cases this
    rw [hnone]
    rfl

/-- From the identifier of the first paragraph of the sample, its document and the paragraph are
above, and everything else is after it. -/
theorem axes_partition_sample :
    ((Forest.indexed [.sample]).walk .ancestor ⟨0, 2⟩ ⟨0, 0⟩ ++
        (Forest.indexed [.sample]).walk .following ⟨0, 2⟩ ⟨0, 0⟩ ++
        (Forest.indexed [.sample]).walk .preceding ⟨0, 2⟩ ⟨0, 0⟩).Perm
      (Tree.sample.ordinary.map (Node.mk 0)) ∧
    (Forest.indexed [.sample]).walk .descendant ⟨0, 2⟩ ⟨0, 0⟩ = [] :=
  (axes_partition rfl (by decide) (List.mem_cons_self) (by decide)).2 (by decide)

end XPath
