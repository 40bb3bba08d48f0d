/-
The axes as relations.

The walks along two paired axes have little in common: one goes down where the other goes up, or
follows the links to the next siblings where the other follows those to the previous ones.  Still
each of them ends up with the nodes that the tree relates to its start in a certain way, and paired
axes stand for the two directions of one relation.

* `Axis.converse` — the axis that leads back;
* `Tree.Connects` — what an axis says about two nodes;
* `View.Depicts.mem_walk_iff` — a walk has the nodes that its axis connects with the start;
* `axes_converse` — paired axes are inverse to each other.
-/
import XPath.Proofs.Tree.Partition

namespace XPath

/-- The axis that leads back.  From attributes and namespace nodes that is the way to the owner. -/
def Axis.converse : Axis → Axis
  | .self => .self
  | .child => .parent
  | .parent => .child
  | .attribute => .parent
  | .namespaceAxis => .parent
  | .descendant => .ancestor
  | .ancestor => .descendant
  | .descendantOrSelf => .ancestorOrSelf
  | .ancestorOrSelf => .descendantOrSelf
  | .followingSibling => .precedingSibling
  | .precedingSibling => .followingSibling
  | .following => .preceding
  | .preceding => .following

/-- Of a list without repetitions, the first member is not among the others. -/
theorem mem_iff_of_nodup_cons {a b : Nat} {xs : List Nat} (h : (a :: xs).Nodup) :
    b ∈ xs ↔ b ∈ a :: xs ∧ a ≠ b := by
  have ha := (List.nodup_cons.1 h).1
  refine ⟨fun hb => ⟨List.mem_cons_of_mem a hb, fun hab => ha (hab ▸ hb)⟩, fun hb => ?_⟩
  exact List.mem_of_ne_of_mem hb.2.symm hb.1

/-! ### What an axis says -/

namespace Tree

variable {t : Tree} {i j owner : Nat}

/-- Two nodes of one owner, the first of which the owner got first. -/
def Elder (t : Tree) (i j : Nat) : Prop :=
  ∃ owner, t.parent? i = some owner ∧ t.parent? j = some owner ∧ i < j

/-- What an axis says about the node that a walk starts at and one that it comes by.  On axes that
are not for attributes or namespace nodes, neither of the two is one. -/
def Connects (t : Tree) : Axis → Nat → Nat → Prop
  | .self, i, j => i = j
  | .child, i, j => t.parent? j = some i
  | .parent, i, j => t.parent? i = some j
  | .attribute, i, j => t.parent? j = some i ∧ t.kind j = .attribute
  | .namespaceAxis, i, j => t.parent? j = some i ∧ t.kind j = .namespaceNode
  | .descendant, i, j => i ∈ t.path j ∧ i ≠ j
  | .ancestor, i, j => j ∈ t.path i ∧ j ≠ i
  | .descendantOrSelf, i, j => i ∈ t.path j
  | .ancestorOrSelf, i, j => j ∈ t.path i
  | .followingSibling, i, j => t.Elder i j
  | .precedingSibling, i, j => t.Elder j i
  | .following, i, j => t.Precedes i j
  | .preceding, i, j => t.Precedes j i

/-- What an axis says of two nodes, its converse says of them in turn. -/
theorem connects_converse {axis : Axis} (h : axis.principalKind = .element) :
    t.Connects axis.converse j i ↔ t.Connects axis i j := by
  cases axis with
  | «attribute» | namespaceAxis => cases h
  | self => exact eq_comm
  | _ => exact Iff.rfl

theorem mem_attributes_iff : j ∈ t.attributes i ↔ t.Connects .attribute i j := by
  rw [attributes, mem_owned, beq_iff_eq, Connects]

theorem mem_namespaces_iff : j ∈ t.namespaces i ↔ t.Connects .namespaceAxis i j := by
  rw [namespaces, mem_owned, beq_iff_eq, Connects]

section Ordinary

variable (hi : i ∈ t.ordinary) (hj : j ∈ t.ordinary)

include hj in
theorem mem_children_ordinary : j ∈ t.children i ↔ t.parent? j = some i :=
  mem_children.trans (and_iff_left (mem_ordinary.1 hj).2)

include hi hj

theorem mem_peers_iff :
    j ∈ t.peers i ↔ ∃ owner, t.parent? i = some owner ∧ t.parent? j = some owner := by
  cases ho : t.parent? i with
  | none =>
    rw [peers, ho]
    simp
  | some owner =>
    rw [peers_of_mem_children ((mem_children_ordinary hi).2 ho), mem_children_ordinary hj]
    simp

theorem mem_siblingsAfter_iff : j ∈ t.siblingsAfter i ↔ t.Elder i j := by
  rw [siblingsAfter, if_pos (mem_ordinary.1 hi).2, List.mem_filter, mem_peers_iff hi hj,
    decide_eq_true_iff]
  constructor
  · rintro ⟨⟨owner, hio, hjo⟩, hlt⟩
    exact ⟨owner, hio, hjo, hlt⟩
  · rintro ⟨owner, hio, hjo, hlt⟩
    exact ⟨⟨owner, hio, hjo⟩, hlt⟩

theorem mem_siblingsBefore_iff : j ∈ t.siblingsBefore i ↔ t.Elder j i := by
  rw [siblingsBefore, if_pos (mem_ordinary.1 hi).2, List.mem_filter, List.mem_reverse,
    mem_peers_iff hi hj, decide_eq_true_iff]
  constructor
  · rintro ⟨⟨owner, hio, hjo⟩, hlt⟩
    exact ⟨owner, hjo, hio, hlt⟩
  · rintro ⟨owner, hjo, hio, hlt⟩
    exact ⟨⟨owner, hio, hjo⟩, hlt⟩

/-- The nodes on the axes that do not depend on a root. -/
theorem mem_axis_iff (hwf : t.WellFormed) {k : Nat} {root : Node} {axis : Axis}
    (hafter : axis ≠ .following) (hbefore : axis ≠ .preceding) :
    j ∈ t.axis k root axis i ↔ t.Connects axis i j := by
  cases axis with
  | self => exact List.mem_singleton.trans eq_comm
  | child => exact mem_children_ordinary hj
  | parent => simp [axis, Connects, Option.mem_toList]
  | «attribute» => exact mem_attributes_iff
  | namespaceAxis => exact mem_namespaces_iff
  | descendant =>
    have hsubtree : (i :: (t.children i).flatMap t.subtree).Nodup :=
      subtree_eq t i ▸ nodup_subtree t i
    rw [Connects, ← mem_subtree_iff hwf hj, subtree_eq]
    exact mem_iff_of_nodup_cons hsubtree
  | descendantOrSelf => exact mem_subtree_iff hwf hj
  | ancestor =>
    have hpath : (i :: (t.path i).tail).Nodup :=
      path_eq t i ▸ nodup_axis hwf (mem_ordinary.1 hi).1 k root .ancestorOrSelf
    rw [Connects, path_eq t i, ne_comm]
    exact mem_iff_of_nodup_cons hpath
  | ancestorOrSelf => exact Iff.rfl
  | followingSibling => exact mem_siblingsAfter_iff hi hj
  | precedingSibling => exact mem_siblingsBefore_iff hi hj
  | following => exact (hafter rfl).elim
  | preceding => exact (hbefore rfl).elim

end Ordinary

end Tree

/-! ### Walks -/

namespace View.Depicts

variable {v : View} {k i j : Nat} {t : Tree} (h : v.Depicts k t)

include h

theorem mem_walk_parent_iff {root : Node} :
    ⟨k, j⟩ ∈ v.walk .parent ⟨k, i⟩ root ↔ t.parent? i = some j := by
  show _ ∈ (v.parent? ⟨k, i⟩).toList ↔ _
  rw [h.parent?, Option.mem_toList]
  exact (Option.map_injective Node.mk_injective).eq_iff (b := some j)

theorem mem_walk_attribute_iff {root : Node} :
    ⟨k, j⟩ ∈ v.walk .attribute ⟨k, i⟩ root ↔ t.Connects .attribute i j := by
  show _ ∈ v.attributes ⟨k, i⟩ ↔ _
  rw [h.attributes, List.mem_map_of_injective Node.mk_injective, Tree.mem_attributes_iff]

theorem mem_walk_namespaceAxis_iff {root : Node} :
    ⟨k, j⟩ ∈ v.walk .namespaceAxis ⟨k, i⟩ root ↔ t.Connects .namespaceAxis i j := by
  show _ ∈ v.namespaces ⟨k, i⟩ ↔ _
  rw [h.namespaces, List.mem_map_of_injective Node.mk_injective, Tree.mem_namespaces_iff]

/-- From a node that is neither an attribute nor a namespace node, a walk in the whole document has
of these nodes the ones that its axis connects with the start. -/
theorem mem_walk_iff (hwf : t.WellFormed) (hi : i ∈ t.ordinary) (hj : j ∈ t.ordinary)
    (axis : Axis) : ⟨k, j⟩ ∈ v.walk axis ⟨k, i⟩ ⟨k, 0⟩ ↔ t.Connects axis i j := by
  have hlt := (Tree.mem_ordinary.1 hi).1
  have hdocument := t.unmet_document k
  rw [h.walk_eq hwf hlt, List.mem_map_of_injective Node.mk_injective]
  have hanchor := Tree.anchor_of_isChild (Tree.mem_ordinary.1 hi).2
  by_cases hafter : axis = .following
  · rw [hafter, Tree.axis, Tree.topsAfter_eq_later hwf hlt hdocument, hanchor, Tree.besides,
      if_pos (Tree.mem_ordinary.1 hi).2, List.nil_append]
    exact Tree.mem_flatMap_later_iff hwf hj
  by_cases hbefore : axis = .preceding
  · rw [hbefore, Tree.axis, Tree.topsBefore_eq_earlier hwf hlt hdocument, hanchor, Tree.Connects,
      ← Tree.mem_flatMap_earlier_iff hwf hj]
    simp
  exact Tree.mem_axis_iff hi hj hwf hafter hbefore

end View.Depicts

/-- In a well-formed tree, if an axis is not for attributes or namespace nodes, then it leads from
one of the other nodes to a second one exactly if its converse leads back.  The axes for attributes
and for namespace nodes lead from a node to those of their kind that have it for a parent. -/
theorem axes_converse {f : Forest} {k : Nat} {t : Tree} (ht : f[k]? = some t) (hwf : t.WellFormed)
    {v : View} (hv : v ∈ [f.indexed, f.structural, f.linked]) :
    (∀ axis : Axis, axis.principalKind = .element → ∀ m ∈ t.ordinary, ∀ n ∈ t.ordinary,
      (⟨k, m⟩ ∈ v.walk axis ⟨k, n⟩ ⟨k, 0⟩ ↔ ⟨k, n⟩ ∈ v.walk axis.converse ⟨k, m⟩ ⟨k, 0⟩)) ∧
    ∀ axis ∈ [Axis.attribute, Axis.namespaceAxis], ∀ m n : Nat,
      (⟨k, m⟩ ∈ v.walk axis ⟨k, n⟩ ⟨k, 0⟩ ↔
        v.kind ⟨k, m⟩ = axis.principalKind ∧ ⟨k, n⟩ ∈ v.walk .parent ⟨k, m⟩ ⟨k, 0⟩) := by
  have h := Forest.view_depicts_of_mem hv ht
  refine ⟨fun axis haxis m hm n hn => ?_, fun axis haxis m n => ?_⟩
  · rw [h.mem_walk_iff hwf hn hm, h.mem_walk_iff hwf hm hn, Tree.connects_converse haxis]
  · rw [h.kind, h.mem_walk_parent_iff, and_comm]
    rcases List.mem_cons.1 haxis with rfl | haxis
    · exact h.mem_walk_attribute_iff
    · rw [List.mem_singleton.1 haxis]
      exact h.mem_walk_namespaceAxis_iff

/-- The text of the second paragraph of the sample follows that of the first, which so precedes it.
The language of the first paragraph is one of its attributes, since the paragraph is the parent. -/
theorem axes_converse_sample :
    ⟨0, 4⟩ ∈ (Forest.linked [.sample]).walk .preceding ⟨0, 9⟩ ⟨0, 0⟩ ∧
    ⟨0, 3⟩ ∈ (Forest.linked [.sample]).walk .attribute ⟨0, 1⟩ ⟨0, 0⟩ := by
  obtain ⟨hconverse, hattached⟩ := axes_converse (f := [.sample]) (k := 0)
    (v := Forest.linked [.sample]) rfl (by decide) (by simp)
  constructor
  · exact (hconverse .following rfl 9 (by decide) 4 (by decide)).1 (by decide +kernel)
  · exact (hattached .attribute (by decide) 3 1).2 (by decide +kernel)

end XPath
