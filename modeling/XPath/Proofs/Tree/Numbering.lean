/-
Numbering a tree.

`Tree.places` is filled by a loop that takes one node after the other from a stack.  The nodes that
have got a place are a list, each at its place in the list; a turn of the loop adds what its node
opens, and the whole run adds this for all that is below the nodes on the stack.  So the places are
those in one list, `Tree.documentOrder`, which in a well-formed tree is `Tree.preorder`.

* `Tree.Numbering.Filled` — the nodes of a list have their places in it;
* `Tree.Numbering.Filled.step`, `Tree.Numbering.Filled.run` — a turn of the loop, and all of it;
* `Tree.position_eq_idxOf` — a place in the document is the one in `Tree.documentOrder`;
* `Tree.position_eq` — it is the one in `Tree.preorder` if the tree is well-formed.
-/
import XPath.Proofs.Tree.Preorder

namespace XPath.Tree

variable {t : Tree} {i : Nat}

/-! ### The list -/

/-- The nodes in document order.  What an attribute or a namespace node owns is not among them. -/
def documentOrder (t : Tree) : List Nat := (t.subtree 0).flatMap t.opening

/-- What the nodes of a subtree open is that of its top and that of the subtrees below. -/
theorem flatMap_opening_subtree (t : Tree) (i : Nat) :
    (t.subtree i).flatMap t.opening =
      t.opening i ++ (t.children i).flatMap fun c => (t.subtree c).flatMap t.opening := by
  rw [subtree_eq, List.flatMap_cons, List.flatMap_assoc]

theorem flatMap_opening_sublist (t : Tree) (i : Nat) :
    ((t.subtree i).flatMap t.opening).Sublist (t.preorder i) := by
  induction i using subtree_induction (t := t) with
  | h i ih =>
    rw [flatMap_opening_subtree, preorder_eq, members, List.flatMap_append]
    have hbelow := List.Sublist.flatMap_right (t.children i) ih
    exact ((t.sublist_flatMap_preorder _).append hbelow).cons_cons i

/-- Nothing is left out if attributes and namespace nodes own nothing. -/
theorem flatMap_opening_eq (hwf : t.WellFormed) (i : Nat) :
    (t.subtree i).flatMap t.opening = t.preorder i := by
  induction i using subtree_induction (t := t) with
  | h i ih =>
    rw [flatMap_opening_subtree, preorder_eq, members, List.flatMap_append, List.flatMap_append,
      namespaces, attributes, flatMap_preorder_owned hwf (by simp [NodeKind.isChild]),
      flatMap_preorder_owned hwf (by simp [NodeKind.isChild]), List.flatMap_congr ih]
    rfl

theorem documentOrder_eq (hwf : t.WellFormed) : t.documentOrder = t.preorder 0 :=
  flatMap_opening_eq hwf 0

theorem nodup_documentOrder (t : Tree) : t.documentOrder.Nodup :=
  (flatMap_opening_sublist t 0).nodup (nodup_preorder t 0)

theorem lt_size_of_mem_documentOrder (h : i ∈ t.documentOrder) : i < t.size :=
  lt_size_of_mem_preorder (by simp [size]) ((flatMap_opening_sublist t 0).subset h)

/-! ### The loop -/

namespace Numbering

/-- The nodes of a list have got their places in the list, and the next one is free. -/
structure Filled (t : Tree) (xs : List Nat) (s : Numbering) : Prop where
  next : s.next = xs.length
  size : s.places.size = t.size
  places : ∀ p i : Nat, xs[p]? = some i → s.places[i]? = some p

variable {s : Numbering} {xs ys : List Nat}

/-- A node that has no place yet gets the next one, and no other one loses its own. -/
theorem Filled.give (h : Filled t xs s) (hi : i < t.size) (hnew : i ∉ xs) :
    Filled t (xs ++ [i]) (s.give i) where
  next := by rw [Numbering.give, h.next, List.length_append]; rfl
  size := by rw [Numbering.give, Array.size_setIfInBounds, h.size]
  places p j hp := by
    show (s.places.setIfInBounds i s.next)[j]? = some p
    rcases Nat.lt_or_ge p xs.length with hlt | hge
    · rw [List.getElem?_append_left hlt] at hp
      have hne : i ≠ j := fun heq => hnew (heq ▸ List.mem_of_getElem? hp)
      rw [Array.getElem?_setIfInBounds_ne hne, h.places p j hp]
    · rw [List.getElem?_append_right hge, List.getElem?_singleton] at hp
      split at hp
      · cases hp
        rw [Array.getElem?_setIfInBounds_self_of_lt (h.size.symm ▸ hi), h.next]
        congr 1
        omega
      · cases hp

theorem Filled.foldl_give (h : Filled t xs s) (hys : ∀ i ∈ ys, i < t.size)
    (hnodup : (xs ++ ys).Nodup) : Filled t (xs ++ ys) (ys.foldl Numbering.give s) := by
  induction ys generalizing xs s with
  | nil => rwa [List.append_nil]
  | cons i ys ih =>
    have hnew : i ∉ xs := fun hi =>
      (List.nodup_append.1 hnodup).2.2 i hi i List.mem_cons_self rfl
    rw [List.append_cons] at hnodup ⊢
    exact ih (h.give (hys i List.mem_cons_self) hnew)
      (fun j hj => hys j (List.mem_cons_of_mem i hj)) hnodup

theorem stack_foldl_give (ys : List Nat) (s : Numbering) :
    (ys.foldl Numbering.give s).stack = s.stack := by
  induction ys generalizing s with
  | nil => rfl
  | cons i ys ih => exact ih (s.give i)

/-- A turn of the loop numbers what the node on top opens. -/
theorem Filled.step {rest : List Nat} (h : Filled t xs s) (hstack : s.stack = i :: rest)
    (hopen : ∀ j ∈ t.opening i, j < t.size) (hnodup : (xs ++ t.opening i).Nodup) :
    ∃ s', s.step t = some s' ∧ s'.stack = t.children i ++ rest ∧
      Filled t (xs ++ t.opening i) s' := by
  have hfilled : Filled t xs { s with stack := t.children i ++ rest } :=
    ⟨h.next, h.size, h.places⟩
  refine ⟨_, by rw [Numbering.step, hstack], stack_foldl_give _ _, ?_⟩
  exact hfilled.foldl_give hopen hnodup

/-- The loop numbers what all nodes below those on the stack open, and leaves none of them there. -/
theorem Filled.run {stack : List Nat} {fuel : Nat} (h : Filled t xs s) (hstack : s.stack = stack)
    (hfuel : (stack.flatMap t.subtree).length ≤ fuel)
    (hopen : ∀ j ∈ (stack.flatMap t.subtree).flatMap t.opening, j < t.size)
    (hnodup : (xs ++ (stack.flatMap t.subtree).flatMap t.opening).Nodup) :
    (Numbering.run t fuel s).stack = [] ∧
      Filled t (xs ++ (stack.flatMap t.subtree).flatMap t.opening) (Numbering.run t fuel s) := by
  induction fuel generalizing xs s stack with
  | zero =>
    obtain rfl : stack = [] := by
      cases stack with
      | nil => rfl
      | cons i rest => simp [subtree_eq t i] at hfuel
    simpa [Numbering.run, hstack] using h
  | succ fuel ih =>
    cases stack with
    | nil => simpa [Numbering.run, Numbering.step, hstack] using h
    | cons i rest =>
      -- The node on top is a step, its subtrees and those of the others are left.
      have hsplit : ((i :: rest).flatMap t.subtree) =
          i :: (t.children i ++ rest).flatMap t.subtree := by
        rw [List.flatMap_cons, subtree_eq, List.flatMap_append, List.cons_append]
      rw [hsplit, List.flatMap_cons] at hopen hnodup ⊢
      rw [hsplit, List.length_cons] at hfuel
      rw [← List.append_assoc] at hnodup ⊢
      obtain ⟨s', hs', hstack', hfilled⟩ := h.step hstack
        (fun j hj => hopen j (List.mem_append_left _ hj)) (List.nodup_append.1 hnodup).1
      rw [Numbering.run, hs']
      exact ih hfilled hstack' (by omega) (fun j hj => hopen j (List.mem_append_right _ hj)) hnodup

end Numbering

/-! ### Places -/

/-- The places that the loop fills are those in document order. -/
theorem places_documentOrder {p : Nat} (h : t.documentOrder[p]? = some i) :
    t.places[i]? = some p := by
  have hstart : Numbering.Filled t [] ⟨Array.replicate t.size 0, 0, [0]⟩ :=
    ⟨rfl, Array.size_replicate, fun p i hp => by simp at hp⟩
  have hsingle : [0].flatMap t.subtree = t.subtree 0 := List.flatMap_singleton ..
  have hlength : (t.subtree 0).length ≤ t.size := by
    have hsubset : t.subtree 0 ⊆ List.range t.size := fun j hj =>
      List.mem_range.2 (mem_ordinary.1 (mem_ordinary_of_mem_subtree t.zero_mem_ordinary hj)).1
    exact ((nodup_subtree t 0).subperm hsubset).length_le.trans_eq List.length_range
  have hrun := @Numbering.Filled.run t _ _ [0] t.size hstart rfl (by rwa [hsingle])
    (by rw [hsingle]; exact fun j hj => lt_size_of_mem_documentOrder hj)
    (by rw [hsingle]; exact nodup_documentOrder t)
  rw [hsingle] at hrun
  exact hrun.2.places p i h

theorem position_eq_idxOf (h : i ∈ t.documentOrder) : t.position i = t.documentOrder.idxOf i := by
  have hplace : t.documentOrder[t.documentOrder.idxOf i]? = some i := List.getElem?_idxOf h
  rw [position, places_documentOrder hplace]
  rfl

/-- In a well-formed tree every node has its place. -/
theorem position_eq (hwf : t.WellFormed) (hi : i < t.size) :
    t.position i = (t.preorder 0).idxOf i := by
  have hmem : i ∈ t.documentOrder := documentOrder_eq hwf ▸ mem_preorder_zero hi
  rw [position_eq_idxOf hmem, documentOrder_eq hwf]

end XPath.Tree
