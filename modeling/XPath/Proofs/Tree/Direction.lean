/-
The direction of the axes.

On a forward axis the nodes come in document order, on a reverse axis the other way round.  So the
nodes on an axis are a sublist of the nodes of the tree in document order, or become one when they
are reversed, and no node is there twice.

* `Tree.axis` — the nodes on an axis, read off the tree;
* `Tree.surroundings_sublist` — what is before, in and after the subtree of a node;
* `Tree.axis_sublist` — the nodes on an axis in document order;
* `Tree.axis_append_sublist` — what is on `preceding` and `precedingSibling` comes before the node;
* `Tree.nodup_axis` — no node is on an axis twice.
-/
import XPath.Tree.Axis
import XPath.Proofs.Tree.Tops

namespace XPath

/-! ### Nodes on an axis -/

namespace Tree

variable {t : Tree} {i j c owner s : Nat}

/-- The siblings after a node, in document order. -/
def siblingsAfter (t : Tree) (i : Nat) : List Nat :=
  if (t.kind i).isChild then (t.peers i).filter (i < ·) else []

/-- The siblings before a node, nearest first. -/
def siblingsBefore (t : Tree) (i : Nat) : List Nat :=
  if (t.kind i).isChild then (t.peers i).reverse.filter (· < i) else []

/-- Where the walks along the document start: at the node, or at the owner of an attribute or a
namespace node. -/
def anchor (t : Tree) (i : Nat) : Nat :=
  if (t.kind i).isChild then i else (t.parent? i).getD i

/-- What comes after an attribute or a namespace node below its owner. -/
def besides (t : Tree) (i : Nat) : List Nat :=
  if (t.kind i).isChild then [] else (t.children (t.anchor i)).flatMap t.subtree

/-- The tops of the subtrees after a node of tree `k` that a walk comes to within a root. -/
def topsAfter (t : Tree) (k : Nat) (root : Node) (i : Nat) : List Nat :=
  t.reached k root (t.anchor i) (t.later (t.anchor i))

/-- The tops of the subtrees before a node of tree `k` that a walk comes to within a root. -/
def topsBefore (t : Tree) (k : Nat) (root : Node) (i : Nat) : List Nat :=
  t.reached k root (t.anchor i) (t.earlier (t.anchor i))

/-- The nodes on an axis of tree `k`.  Of the subtrees on their side, `following` and `preceding`
pass through those that the root leaves. -/
def axis (t : Tree) (k : Nat) (root : Node) : Axis → Nat → List Nat
  | .self, i => [i]
  | .child, i => t.children i
  | .parent, i => (t.parent? i).toList
  | .attribute, i => t.attributes i
  | .namespaceAxis, i => t.namespaces i
  | .descendant, i => (t.children i).flatMap t.subtree
  | .descendantOrSelf, i => t.subtree i
  | .ancestor, i => (t.path i).tail
  | .ancestorOrSelf, i => t.path i
  | .followingSibling, i => t.siblingsAfter i
  | .precedingSibling, i => t.siblingsBefore i
  | .following, i => t.besides i ++ (t.topsAfter k root i).flatMap t.subtree
  | .preceding, i => (t.topsBefore k root i).flatMap fun j => (t.subtree j).reverse

theorem topsAfter_sublist (t : Tree) (k : Nat) (root : Node) (i : Nat) :
    (t.topsAfter k root i).Sublist (t.later (t.anchor i)) := t.reached_sublist k root _ _

theorem topsBefore_sublist (t : Tree) (k : Nat) (root : Node) (i : Nat) :
    (t.topsBefore k root i).Sublist (t.earlier (t.anchor i)) := t.reached_sublist k root _ _

theorem anchor_of_isChild (h : (t.kind i).isChild = true) : t.anchor i = i := if_pos h

theorem anchor_of_attached (h : (t.kind i).isChild = false) (ho : t.parent? i = some owner) :
    t.anchor i = owner := by
  rw [anchor, if_neg (by simp [h]), ho]
  rfl

/-- In a well-formed tree the walks along the document start at an ordinary node. -/
theorem anchor_mem_ordinary (hwf : t.WellFormed) (hi : i < t.size) : t.anchor i ∈ t.ordinary := by
  by_cases hk : (t.kind i).isChild = true
  · rw [anchor_of_isChild hk]
    exact mem_ordinary.2 ⟨hi, hk⟩
  · have hk : (t.kind i).isChild = false := by simpa using hk
    -- The document is a child by its kind, so there is an owner.
    have hzero : i ≠ 0 := by rintro rfl; cases hk
    obtain ⟨owner, ho⟩ := exists_parent? hi hzero
    rw [anchor_of_attached hk ho]
    exact owner_mem_ordinary hwf hi ho

theorem siblingsAfter_of_mem_children (h : i ∈ t.children owner) :
    t.siblingsAfter i = (t.children owner).filter (i < ·) := by
  rw [siblingsAfter, if_pos (mem_children.1 h).2, peers_of_mem_children h]

theorem siblingsBefore_of_mem_children (h : i ∈ t.children owner) :
    t.siblingsBefore i = ((t.children owner).filter (· < i)).reverse := by
  rw [siblingsBefore, if_pos (mem_children.1 h).2, peers_of_mem_children h, List.filter_reverse]

/-- A node has siblings only if an owner lists it as a child. -/
theorem siblings_eq_nil (h : ∀ owner, i ∉ t.children owner) :
    t.siblingsAfter i = [] ∧ t.siblingsBefore i = [] := by
  by_cases hk : (t.kind i).isChild = true
  · have hpeers : t.peers i = [] := by
      cases ho : t.parent? i with
      | none => rw [peers, ho]
      | some owner => exact (h owner (mem_children.2 ⟨ho, hk⟩)).elim
    simp [siblingsAfter, siblingsBefore, hpeers]
  · rw [siblingsAfter, siblingsBefore, if_neg hk, if_neg hk]
    exact ⟨rfl, rfl⟩

theorem length_filter_children_le (p : Nat → Bool) (owner : Nat) :
    ((t.children owner).filter p).length ≤ t.size :=
  Nat.le_trans (List.length_filter_le _ _) (length_children_le t owner)

/-! ### Sublists of document order -/

theorem mem_preorder_self (t : Tree) (i : Nat) : i ∈ t.preorder i :=
  preorder_eq t i ▸ List.mem_cons_self

/-- What a node owns, each with all that is below it, comes after the node. -/
theorem cons_flatMap_sublist {xs : List Nat} (h : xs.Sublist (t.members i)) :
    (i :: xs.flatMap t.preorder).Sublist (t.preorder i) := by
  rw [preorder_eq]
  exact (h.flatMap t.preorder).cons_cons i

theorem members_sublist_preorder (t : Tree) (i : Nat) : (t.members i).Sublist (t.preorder i) :=
  ((t.sublist_flatMap_preorder _).cons i).trans (cons_flatMap_sublist (List.Sublist.refl _))

theorem children_sublist_members (t : Tree) (i : Nat) : (t.children i).Sublist (t.members i) :=
  List.sublist_append_right _ _

theorem subtree_sublist_preorder (t : Tree) (i : Nat) : (t.subtree i).Sublist (t.preorder i) := by
  induction i using subtree_induction (t := t) with
  | h i ih =>
    rw [subtree_eq]
    exact ((List.Sublist.flatMap_right _ ih).cons_cons i).trans
      (cons_flatMap_sublist (children_sublist_members t i))

/-- All that is below a node of a list is in the list, in the same order. -/
theorem preorder_sublist (h : j ∈ t.preorder i) : (t.preorder j).Sublist (t.preorder i) := by
  induction i using members_induction (t := t) with
  | h i ih =>
    rw [preorder_eq, List.mem_cons, List.mem_flatMap] at h
    rcases h with rfl | ⟨c, hc, h⟩
    · exact List.Sublist.refl _
    · have hcons := cons_flatMap_sublist (List.singleton_sublist.2 hc)
      rw [List.flatMap_singleton] at hcons
      exact (ih c hc h).trans ((List.sublist_cons_self i _).trans hcons)

/-- The subtrees of the siblings before a node, the node with all below it, and the subtrees of
the siblings after it. -/
theorem siblings_sublist (hc : c ∈ t.children i) :
    (((t.children i).filter (· < c)).flatMap t.subtree ++ (t.preorder c ++
      ((t.children i).filter (c < ·)).flatMap t.subtree)).Sublist (t.preorder i) := by
  have hcons := cons_flatMap_sublist (children_sublist_members t i)
  rw [filter_append_cons_filter (sorted_children t i) hc, List.flatMap_append,
    List.flatMap_cons] at hcons
  refine List.Sublist.trans ?_ ((List.sublist_cons_self i _).trans hcons)
  have hsubtree : ∀ xs : List Nat, (xs.flatMap t.subtree).Sublist (xs.flatMap t.preorder) :=
    fun xs => List.Sublist.flatMap_right xs fun d _ => subtree_sublist_preorder t d
  exact (hsubtree _).append ((List.Sublist.refl _).append (hsubtree _))

/-- The nodes above a node come before it and all below it. -/
theorem path_sublist (hi : i < t.size) :
    ((t.path i).tail.reverse ++ t.preorder i).Sublist (t.preorder 0) := by
  induction i using Nat.strongRecOn with
  | ind i ih =>
    by_cases hzero : i = 0
    · rw [hzero, path_of_none rfl]
      exact List.Sublist.refl _
    obtain ⟨owner, ho⟩ := exists_parent? hi hzero
    have hlt := parent?_lt ho
    have hcons := cons_flatMap_sublist (List.singleton_sublist.2 (mem_members.2 ho))
    rw [List.flatMap_singleton] at hcons
    rw [path_of_some ho, List.tail_cons, path_eq, List.reverse_cons, List.append_assoc]
    exact ((List.Sublist.refl _).append hcons).trans (ih owner hlt (Nat.lt_trans hlt hi))

/-- The subtrees before an ordinary node, the node with all below it, and the subtrees after it. -/
theorem surroundings_sublist (hwf : t.WellFormed) (hi : i ∈ t.ordinary) :
    ((t.earlier i).reverse.flatMap t.subtree ++ (t.preorder i ++
      (t.later i).flatMap t.subtree)).Sublist (t.preorder 0) := by
  induction i using Nat.strongRecOn with
  | ind i ih =>
    obtain ⟨hlt, hk⟩ := mem_ordinary.1 hi
    by_cases hzero : i = 0
    · have hnone : t.parent? i = none := hzero ▸ rfl
      rw [earlier_of_none hnone, later_of_none hnone, hzero]
      simp
    obtain ⟨owner, ho⟩ := exists_parent? hlt hzero
    have houter := ih owner (parent?_lt ho) (owner_mem_ordinary hwf hlt ho)
    have hinner := siblings_sublist (mem_children.2 ⟨ho, hk⟩)
    rw [earlier_of_some ho, later_of_some ho, List.reverse_append, List.reverse_reverse,
      List.flatMap_append, List.flatMap_append]
    -- The siblings and the node itself are inside the subtree of the owner.
    refine List.Sublist.trans ?_ houter
    have h := (List.Sublist.refl ((t.earlier owner).reverse.flatMap t.subtree)).append
      (hinner.append (List.Sublist.refl ((t.later owner).flatMap t.subtree)))
    simpa using h

theorem children_sublist_preorder (h : c ∈ t.children i) :
    (t.children i).Sublist (t.preorder 0) := by
  have hi : i < t.size := Nat.lt_trans (lt_of_mem_children h) (lt_size_of_mem_children h)
  exact (children_sublist_members t i).trans ((members_sublist_preorder t i).trans
    (preorder_sublist (mem_preorder_zero hi)))

/-- Siblings are among the children of one owner. -/
theorem siblings_sublist_preorder (t : Tree) (i : Nat) :
    (t.siblingsAfter i).Sublist (t.preorder 0) ∧
      (t.siblingsBefore i).reverse.Sublist (t.preorder 0) := by
  by_cases hi : ∃ owner, i ∈ t.children owner
  · obtain ⟨owner, hi⟩ := hi
    have hchildren := children_sublist_preorder hi
    rw [siblingsAfter_of_mem_children hi, siblingsBefore_of_mem_children hi, List.reverse_reverse]
    exact ⟨List.filter_sublist.trans hchildren, List.filter_sublist.trans hchildren⟩
  · obtain ⟨hafter, hbefore⟩ := siblings_eq_nil (not_exists.1 hi)
    rw [hafter, hbefore]
    exact ⟨List.nil_sublist _, List.nil_sublist _⟩

/-- On a forward axis the nodes are in document order, on a reverse axis against it. -/
theorem axis_sublist (hwf : t.WellFormed) (hi : i < t.size) (k : Nat) (root : Node) (axis : Axis) :
    (if axis.isReverse then (t.axis k root axis i).reverse
      else t.axis k root axis i).Sublist (t.preorder 0) := by
  have hbelow := preorder_sublist (mem_preorder_zero hi)
  have hmembers := (members_sublist_preorder t i).trans hbelow
  have hsubtree := (subtree_sublist_preorder t i).trans hbelow
  have hpath := path_sublist hi
  have hanchor := anchor_mem_ordinary hwf hi
  have haround := surroundings_sublist hwf hanchor
  cases axis with
  | self => exact List.singleton_sublist.2 (mem_preorder_zero hi)
  | child => exact (children_sublist_members t i).trans hmembers
  | parent =>
    show (t.parent? i).toList.Sublist _
    cases ho : t.parent? i with
    | none => exact List.nil_sublist _
    | some owner =>
      exact List.singleton_sublist.2 (mem_preorder_zero (Nat.lt_trans (parent?_lt ho) hi))
  | «attribute» =>
    exact ((List.sublist_append_right _ _).trans (List.sublist_append_left _ _)).trans hmembers
  | namespaceAxis =>
    exact ((List.sublist_append_left _ _).trans (List.sublist_append_left _ _)).trans hmembers
  | descendant =>
    rw [subtree_eq] at hsubtree
    exact (List.sublist_cons_self i _).trans hsubtree
  | descendantOrSelf => exact hsubtree
  | ancestor => exact (List.sublist_append_left _ _).trans hpath
  | ancestorOrSelf =>
    show (t.path i).reverse.Sublist _
    rw [path_eq, List.reverse_cons]
    have hself := List.singleton_sublist.2 (mem_preorder_self t i)
    exact ((List.Sublist.refl _).append hself).trans hpath
  | followingSibling => exact (siblings_sublist_preorder t i).1
  | precedingSibling => exact (siblings_sublist_preorder t i).2
  | following =>
    have hbesides : (t.besides i).Sublist (t.preorder (t.anchor i)) := by
      rw [besides]
      split
      · exact List.nil_sublist _
      · have h := subtree_sublist_preorder t (t.anchor i)
        rw [subtree_eq] at h
        exact (List.sublist_cons_self _ _).trans h
    have hlater := (t.topsAfter_sublist k root i).flatMap t.subtree
    exact (hbesides.append hlater).trans ((List.sublist_append_right _ _).trans haround)
  | preceding =>
    show ((t.topsBefore k root i).flatMap fun j => (t.subtree j).reverse).reverse.Sublist _
    have hearlier := (t.topsBefore_sublist k root i).reverse.flatMap t.subtree
    rw [List.reverse_flatMap]
    simpa [Function.comp_def] using hearlier.trans ((List.sublist_append_left _ _).trans haround)

theorem mem_preorder_anchor (hi : i < t.size) : i ∈ t.preorder (t.anchor i) := by
  by_cases hk : (t.kind i).isChild = true
  · rw [anchor_of_isChild hk]
    exact mem_preorder_self t i
  · have hk : (t.kind i).isChild = false := by simpa using hk
    have hzero : i ≠ 0 := by rintro rfl; cases hk
    obtain ⟨owner, ho⟩ := exists_parent? hi hzero
    rw [anchor_of_attached hk ho]
    exact (members_sublist_preorder t owner).subset (mem_members.2 ho)

/-- What is on an axis whose order is restored comes before the node, nearest first. -/
theorem axis_append_sublist (hwf : t.WellFormed) (hi : i < t.size) (k : Nat) (root : Node)
    {axis : Axis} (haxis : axis.restoresOrder = true) :
    ((t.axis k root axis i).reverse ++ [i]).Sublist (t.preorder 0) := by
  cases axis with
  | precedingSibling =>
    show ((t.siblingsBefore i).reverse ++ [i]).Sublist _
    by_cases hchild : ∃ owner, i ∈ t.children owner
    · obtain ⟨owner, hchild⟩ := hchild
      have hchildren := children_sublist_preorder hchild
      rw [siblingsBefore_of_mem_children hchild, List.reverse_reverse]
      refine List.Sublist.trans ?_ hchildren
      conv_rhs => rw [filter_append_cons_filter (sorted_children t owner) hchild]
      exact (List.Sublist.refl _).append (List.singleton_sublist.2 List.mem_cons_self)
    · rw [(siblings_eq_nil (not_exists.1 hchild)).2]
      exact List.singleton_sublist.2 (mem_preorder_zero hi)
  | preceding =>
    have haround := surroundings_sublist hwf (anchor_mem_ordinary hwf hi)
    have hearlier := (t.topsBefore_sublist k root i).reverse.flatMap t.subtree
    have hself : [i].Sublist
        (t.preorder (t.anchor i) ++ (t.later (t.anchor i)).flatMap t.subtree) :=
      List.singleton_sublist.2 (List.mem_append_left _ (mem_preorder_anchor hi))
    show (((t.topsBefore k root i).flatMap fun j => (t.subtree j).reverse).reverse ++ [i]).Sublist _
    rw [List.reverse_flatMap]
    simpa [Function.comp_def] using (hearlier.append hself).trans haround
  | _ => cases haxis

/-- No node is on an axis twice. -/
theorem nodup_axis (hwf : t.WellFormed) (hi : i < t.size) (k : Nat) (root : Node) (axis : Axis) :
    (t.axis k root axis i).Nodup := by
  have hnodup := (axis_sublist hwf hi k root axis).nodup (nodup_preorder t 0)
  split at hnodup
  · exact List.nodup_reverse.1 hnodup
  · exact hnodup

theorem lt_size_of_mem_axis (hwf : t.WellFormed) (hi : i < t.size) (k : Nat) (root : Node)
    {axis : Axis} (h : j ∈ t.axis k root axis i) : j < t.size := by
  have hsub := (axis_sublist hwf hi k root axis).subset
  refine lt_size_of_mem_preorder (i := 0) (by simp [size]) (hsub ?_)
  split
  · exact List.mem_reverse.2 h
  · exact h

/-- No more nodes are on an axis than there are in the tree. -/
theorem length_axis_le (hwf : t.WellFormed) (hi : i < t.size) (k : Nat) (root : Node)
    (axis : Axis) : (t.axis k root axis i).length ≤ t.size := by
  have hsubset : t.axis k root axis i ⊆ List.range t.size :=
    fun j hj => List.mem_range.2 (lt_size_of_mem_axis hwf hi k root hj)
  exact ((nodup_axis hwf hi k root axis).subperm hsubset).length_le.trans_eq List.length_range

end Tree

end XPath
