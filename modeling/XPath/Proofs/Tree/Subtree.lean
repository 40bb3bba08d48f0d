/-
The nodes around a node.

Seen from a node, a tree falls apart: the nodes above it, the subtrees of the siblings before it
and before the nodes above it, those of the siblings after these, and its own subtree.  No node is
in two of these parts, and none is left out but attributes and namespace nodes, provided that these
own nothing.

* `Tree.WellFormed` — attributes and namespace nodes own nothing;
* `Tree.path`, `Tree.subtree`, `Tree.earlier`, `Tree.later` — the parts;
* `Tree.subtree_perm` — the subtree of the document falls into them;
* `Tree.subtree_zero_perm` — it has each node once that is no attribute or namespace node.
-/
import Mathlib
import XPath.Tree.Basic

namespace XPath.Tree

variable {t : Tree} {i j owner c : Nat}

/-- Attributes and namespace nodes own no nodes. -/
def WellFormed (t : Tree) : Prop :=
  ∀ i owner, t.parent? i = some owner → (t.kind owner).isChild = true

/-- The nodes that are neither attributes nor namespace nodes. -/
def ordinary (t : Tree) : List Nat := (List.range t.size).filter fun i => (t.kind i).isChild

/-! ### Owners and children -/

theorem lt_size_of_parent? (h : t.parent? i = some owner) : i < t.size := by
  cases i with
  | zero => simp [size]
  | succ i =>
    obtain ⟨e, he, -⟩ := Option.map_eq_some_iff.1 h
    obtain ⟨hi, -⟩ := Array.getElem?_eq_some_iff.1 he
    simpa [size] using hi

/-- Each node but the document has an owner. -/
theorem exists_parent? (h : i < t.size) (hi : i ≠ 0) : ∃ owner, t.parent? i = some owner := by
  obtain _ | i := i
  · exact (hi rfl).elim
  · rw [size, Nat.add_lt_add_iff_right] at h
    exact ⟨_, by rw [parent?, Array.getElem?_eq_getElem h]; rfl⟩

instance : Decidable t.WellFormed :=
  decidable_of_iff (∀ i < t.size, ∀ owner ∈ t.parent? i, (t.kind owner).isChild = true)
    ⟨fun h i owner ho => h i (lt_size_of_parent? ho) owner ho, fun h i _ owner ho => h i owner ho⟩

theorem mem_children : c ∈ t.children i ↔ t.parent? c = some i ∧ (t.kind c).isChild = true := by
  rw [children, owned, List.mem_filter, List.mem_range, Bool.and_eq_true, decide_eq_true_iff,
    and_iff_right_iff_imp]
  exact fun h => lt_size_of_parent? h.1

theorem lt_of_mem_children (h : c ∈ t.children i) : i < c := parent?_lt (mem_children.1 h).1

theorem lt_size_of_mem_children (h : c ∈ t.children i) : c < t.size :=
  lt_size_of_parent? (mem_children.1 h).1

/-- Children are listed in the order of their numbers. -/
theorem sorted_children (t : Tree) (i : Nat) : (t.children i).Pairwise (· < ·) :=
  List.Pairwise.filter _ List.pairwise_lt_range

theorem nodup_children (t : Tree) (i : Nat) : (t.children i).Nodup :=
  (sorted_children t i).imp Nat.ne_of_lt

/-- A sorted list is what comes before one of its members, the member, and what comes after. -/
theorem filter_append_cons_filter {xs : List Nat} (hs : xs.Pairwise (· < ·)) (h : i ∈ xs) :
    xs = xs.filter (· < i) ++ i :: xs.filter (i < ·) := by
  induction xs with
  | nil => cases h
  | cons x rest ih =>
    obtain ⟨hx, hs⟩ := List.pairwise_cons.1 hs
    rcases List.mem_cons.1 h with rfl | h
    · have hbefore : rest.filter (· < i) = [] :=
        List.filter_eq_nil_iff.2 fun j hj => by simpa using Nat.le_of_lt (hx j hj)
      have hafter : rest.filter (i < ·) = rest :=
        List.filter_eq_self.2 fun j hj => by simpa using hx j hj
      simp [hbefore, hafter]
    · have hlt := hx i h
      rw [List.filter_cons_of_pos (by simpa using hlt),
        List.filter_cons_of_neg (by simpa using Nat.le_of_lt hlt), List.cons_append, ← ih hs h]

/-! ### Paths -/

/-- The nodes from a node up to the document. -/
def path (t : Tree) (i : Nat) : List Nat :=
  i :: match _ : t.parent? i with
    | none => []
    | some owner => t.path owner
termination_by i
decreasing_by exact parent?_lt ‹_›

theorem path_of_none (h : t.parent? i = none) : t.path i = [i] := by
  rw [path]
  split
  · rfl
  · next h' => rw [h] at h'; cases h'

theorem path_of_some (h : t.parent? i = some owner) : t.path i = i :: t.path owner := by
  rw [path]
  split
  · next h' => rw [h] at h'; cases h'
  · next h' => rw [h] at h'; cases h'; rfl

/-- A path starts at the node and goes on above it. -/
theorem path_eq (t : Tree) (i : Nat) : t.path i = i :: (t.path i).tail := by
  cases h : t.parent? i with
  | none => rw [path_of_none h]; rfl
  | some owner => rw [path_of_some h]; rfl

theorem le_of_mem_path (h : j ∈ t.path i) : j ≤ i := by
  induction i using Nat.strongRecOn with
  | ind i ih =>
    cases hi : t.parent? i with
    | none => rw [path_of_none hi, List.mem_singleton] at h; omega
    | some owner =>
      have hlt := parent?_lt hi
      rw [path_of_some hi, List.mem_cons] at h
      rcases h with rfl | h
      · exact Nat.le_refl _
      · exact Nat.le_trans (ih owner hlt h) (Nat.le_of_lt hlt)

/-- With a node its owner is on a path. -/
theorem mem_path_of_parent? (h : j ∈ t.path i) (hj : t.parent? j = some owner) :
    owner ∈ t.path i := by
  induction i using Nat.strongRecOn with
  | ind i ih =>
    cases hi : t.parent? i with
    | none =>
      rw [path_of_none hi, List.mem_singleton] at h
      rw [h, hi] at hj
      cases hj
    | some above =>
      rw [path_of_some hi, List.mem_cons] at h ⊢
      rcases h with rfl | h
      · rw [hi] at hj
        cases hj
        exact Or.inr (path_eq t owner ▸ List.mem_cons_self)
      · exact Or.inr (ih above (parent?_lt hi) h)

/-- Only one child of a node is on a path. -/
theorem eq_of_mem_path (hj : j ∈ t.path i) (hc : c ∈ t.path i) (hj' : t.parent? j = some owner)
    (hc' : t.parent? c = some owner) : j = c := by
  induction i using Nat.strongRecOn with
  | ind i ih =>
    cases hi : t.parent? i with
    | none =>
      rw [path_of_none hi, List.mem_singleton] at hj hc
      rw [hj, hc]
    | some above =>
      rw [path_of_some hi, List.mem_cons] at hj hc
      -- What is above `i` is owned by something smaller than what owns `i`.
      have habove : ∀ k ∈ t.path above, t.parent? k = some owner → t.parent? i ≠ some owner :=
        fun k hk hk' hio => by
          have := le_of_mem_path hk
          have := parent?_lt hk'
          rw [hi] at hio
          cases hio
          omega
      rcases hj with rfl | hj
      · rcases hc with rfl | hc
        · rfl
        · exact (habove c hc hc' hj').elim
      · rcases hc with rfl | hc
        · exact (habove j hj hj' hc').elim
        · exact ih above (parent?_lt hi) hj hc

/-! ### Subtrees -/

/-- A node and what is below it, attributes and namespace nodes apart. -/
def subtree (t : Tree) (i : Nat) : List Nat :=
  i :: (t.children i).attach.flatMap fun c => t.subtree c.1
termination_by t.size - i
decreasing_by
  have := lt_of_mem_children c.2
  have := lt_size_of_mem_children c.2
  omega

theorem subtree_eq (t : Tree) (i : Nat) : t.subtree i = i :: (t.children i).flatMap t.subtree := by
  rw [subtree, List.flatMap_subtype fun _ _ => rfl, List.unattach_attach]

/-- To prove something of all nodes, prove it of each when it is true of its children. -/
theorem subtree_induction {P : Nat → Prop} (h : ∀ i, (∀ c ∈ t.children i, P c) → P i) (i : Nat) :
    P i := by
  induction hn : t.size - i using Nat.strongRecOn generalizing i with
  | ind n ih =>
    refine h i fun c hc => ih (t.size - c) ?_ c rfl
    have := lt_of_mem_children hc
    have := lt_size_of_mem_children hc
    omega

theorem mem_path_of_mem_subtree (h : j ∈ t.subtree i) : i ∈ t.path j := by
  induction i using subtree_induction (t := t) with
  | h i ih =>
    rw [subtree_eq, List.mem_cons, List.mem_flatMap] at h
    rcases h with rfl | ⟨c, hc, h⟩
    · exact path_eq t j ▸ List.mem_cons_self
    · exact mem_path_of_parent? (ih c hc h) (mem_children.1 hc).1

theorem le_of_mem_subtree (h : j ∈ t.subtree i) : i ≤ j :=
  le_of_mem_path (mem_path_of_mem_subtree h)

/-- A subtree has no node twice. -/
theorem nodup_subtree (t : Tree) (i : Nat) : (t.subtree i).Nodup := by
  induction i using subtree_induction (t := t) with
  | h i ih =>
    rw [subtree_eq, List.nodup_cons, List.nodup_flatMap]
    refine ⟨fun hi => ?_, ih, (nodup_children t i).imp_of_mem fun hc hd hne => ?_⟩
    · obtain ⟨c, hc, hi⟩ := List.mem_flatMap.1 hi
      exact Nat.not_lt.2 (le_of_mem_subtree hi) (lt_of_mem_children hc)
    · -- A node in both subtrees would have two children of `i` on its path.
      intro j hjc hjd
      exact hne (eq_of_mem_path (mem_path_of_mem_subtree hjc) (mem_path_of_mem_subtree hjd)
        (mem_children.1 hc).1 (mem_children.1 hd).1)

/-- With a node a subtree has its children. -/
theorem mem_subtree_of_mem_children (h : j ∈ t.subtree i) (hc : c ∈ t.children j) :
    c ∈ t.subtree i := by
  induction i using subtree_induction (t := t) with
  | h i ih =>
    rw [subtree_eq, List.mem_cons, List.mem_flatMap] at h ⊢
    rcases h with rfl | ⟨d, hd, h⟩
    · exact Or.inr ⟨c, hc, subtree_eq t c ▸ List.mem_cons_self⟩
    · exact Or.inr ⟨d, hd, ih d hd h⟩

theorem mem_ordinary : i ∈ t.ordinary ↔ i < t.size ∧ (t.kind i).isChild = true := by
  rw [ordinary, List.mem_filter, List.mem_range]

theorem zero_mem_ordinary (t : Tree) : 0 ∈ t.ordinary :=
  mem_ordinary.2 ⟨by simp [size], rfl⟩

theorem mem_ordinary_of_mem_subtree (hi : i ∈ t.ordinary) (h : j ∈ t.subtree i) :
    j ∈ t.ordinary := by
  induction i using subtree_induction (t := t) with
  | h i ih =>
    rw [subtree_eq, List.mem_cons, List.mem_flatMap] at h
    rcases h with rfl | ⟨c, hc, h⟩
    · exact hi
    · exact ih c hc (mem_ordinary.2 ⟨lt_size_of_mem_children hc, (mem_children.1 hc).2⟩) h

theorem mem_subtree_zero (hwf : t.WellFormed) (h : j ∈ t.ordinary) : j ∈ t.subtree 0 := by
  -- The owner is an ordinary node as well, because the tree is well-formed.
  induction j using Nat.strongRecOn with
  | ind j ih =>
    obtain ⟨hj, hk⟩ := mem_ordinary.1 h
    by_cases hzero : j = 0
    · rw [hzero, subtree_eq]
      exact List.mem_cons_self
    · obtain ⟨owner, ho⟩ := exists_parent? hj hzero
      have hlt := parent?_lt ho
      have howner := ih owner hlt (mem_ordinary.2 ⟨Nat.lt_trans hlt hj, hwf j owner ho⟩)
      exact mem_subtree_of_mem_children howner (mem_children.2 ⟨ho, hk⟩)

/-- In a well-formed tree the subtree of the document has each node once that is neither an
attribute nor a namespace node. -/
theorem subtree_zero_perm (hwf : t.WellFormed) : (t.subtree 0).Perm t.ordinary := by
  refine (List.perm_ext_iff_of_nodup (nodup_subtree t 0) (List.nodup_range.filter _)).2 fun j => ?_
  exact ⟨mem_ordinary_of_mem_subtree (zero_mem_ordinary t), mem_subtree_zero hwf⟩

/-! ### Before and after -/

/-- The siblings before a node, nearest first, then those before the node above it, and so on. -/
def earlier (t : Tree) (i : Nat) : List Nat :=
  match _ : t.parent? i with
  | none => []
  | some owner => ((t.children owner).filter (· < i)).reverse ++ t.earlier owner
termination_by i
decreasing_by exact parent?_lt ‹_›

/-- The siblings after a node, then those after the node above it, and so on. -/
def later (t : Tree) (i : Nat) : List Nat :=
  match _ : t.parent? i with
  | none => []
  | some owner => (t.children owner).filter (i < ·) ++ t.later owner
termination_by i
decreasing_by exact parent?_lt ‹_›

theorem earlier_of_none (h : t.parent? i = none) : t.earlier i = [] := by
  rw [earlier]
  split
  · rfl
  · next h' => rw [h] at h'; cases h'

theorem earlier_of_some (h : t.parent? i = some owner) :
    t.earlier i = ((t.children owner).filter (· < i)).reverse ++ t.earlier owner := by
  rw [earlier]
  split
  · next h' => rw [h] at h'; cases h'
  · next h' => rw [h] at h'; cases h'; rfl

theorem later_of_none (h : t.parent? i = none) : t.later i = [] := by
  rw [later]
  split
  · rfl
  · next h' => rw [h] at h'; cases h'

theorem later_of_some (h : t.parent? i = some owner) :
    t.later i = (t.children owner).filter (i < ·) ++ t.later owner := by
  rw [later]
  split
  · next h' => rw [h] at h'; cases h'
  · next h' => rw [h] at h'; cases h'; rfl

/-- The owner of an ordinary node is one. -/
theorem owner_mem_ordinary (hwf : t.WellFormed) (hi : i < t.size) (h : t.parent? i = some owner) :
    owner ∈ t.ordinary :=
  mem_ordinary.2 ⟨Nat.lt_trans (parent?_lt h) hi, hwf i owner h⟩

/-- A tree is what is above a node, the subtrees before it, the subtrees after it, and its own. -/
theorem subtree_perm (hwf : t.WellFormed) (hi : i ∈ t.ordinary) :
    (t.subtree 0).Perm ((t.path i).tail ++ (t.earlier i).flatMap t.subtree ++
      (t.later i).flatMap t.subtree ++ t.subtree i) := by
  induction i using Nat.strongRecOn with
  | ind i ih =>
    obtain ⟨hlt, hk⟩ := mem_ordinary.1 hi
    by_cases hzero : i = 0
    · have hnone : t.parent? i = none := hzero ▸ rfl
      rw [path_of_none hnone, earlier_of_none hnone, later_of_none hnone, hzero]
      exact .refl _
    obtain ⟨owner, ho⟩ := exists_parent? hlt hzero
    have hperm := ih owner (parent?_lt ho) (owner_mem_ordinary hwf hlt ho)
    -- Going down from the owner, its subtree splits around the child.
    have hsplit := filter_append_cons_filter (sorted_children t owner) (mem_children.2 ⟨ho, hk⟩)
    rw [path_of_some ho, earlier_of_some ho, later_of_some ho, List.tail_cons, path_eq t owner]
    rw [subtree_eq t owner, hsplit] at hperm
    generalize (t.children owner).filter (· < i) = before at hperm ⊢
    generalize (t.children owner).filter (i < ·) = after at hperm ⊢
    -- Both sides have the same pieces in another order, so it is enough to count.
    refine hperm.trans (List.perm_iff_count.2 fun j => ?_)
    have hreverse := ((List.reverse_perm before).flatMap_right t.subtree).count_eq j
    simp only [List.flatMap_append, List.flatMap_cons, List.count_append, List.count_cons] at *
    omega

end XPath.Tree
