/-
Views that present trees.

The walks along the axes know a tree only by its links.  All four views of a forest present its
trees: the links that they answer with are those of the tree, at least between nodes that are
neither attributes nor namespace nodes.  So following links visits the lists of the tree.

* `Links.Presents`, `View.Presents` — the links are those of a tree;
* `Forest.presents_indexed`, … — the views of forests present their trees;
* `Links.Presents.children_eq` — the children;
* `Links.Presents.ancestors_eq` — the nodes above a node.
-/
import XPath.Tree.Forest
import XPath.Proofs.Tree.Subtree

namespace XPath

theorem Node.mk_injective {k : Nat} : Function.Injective (Node.mk k) := by
  rintro i j ⟨⟩
  rfl

/-! ### Chains -/

/-- The first member that satisfies a test is the one after those that do not. -/
theorem find?_append_cons {p : Nat → Bool} {before after : List Nat} {x : Nat}
    (hbefore : ∀ y ∈ before, p y = false) (hx : p x = false) (hafter : ∀ y ∈ after, p y = true) :
    (before ++ x :: after).find? p = after.head? := by
  have hnone : before.find? p = none := List.find?_eq_none.2 (by simpa using hbefore)
  rw [List.find?_append, hnone, Option.none_or, List.find?_cons_of_neg (by simp [hx])]
  cases after with
  | nil => rfl
  | cons y rest => rw [List.find?_cons_of_pos (hafter y List.mem_cons_self), List.head?_cons]

namespace Links

variable {l : Links} {k i : Nat} {t : Tree}

/-- Following a link from the first member of a list visits the list, if it leads from each member
to the next one. -/
theorem chainFrom_map {link : Node → Option Node} {next : Nat → Option Nat} {xs : List Nat}
    {fuel : Nat} (hlink : ∀ x ∈ xs, link ⟨k, x⟩ = (next x).map (Node.mk k))
    (hnext : ∀ before x after, xs = before ++ x :: after → next x = after.head?)
    (hfuel : xs.length ≤ fuel) :
    chainFrom link fuel (xs.head?.map (Node.mk k)) = xs.map (Node.mk k) := by
  induction xs generalizing fuel with
  | nil => cases fuel <;> rfl
  | cons x rest ih =>
    obtain _ | fuel := fuel
    · cases hfuel
    rw [List.head?_cons, Option.map_some, chainFrom, hlink x List.mem_cons_self,
      hnext [] x rest rfl, List.map_cons]
    refine congrArg _ (ih (fun y hy => hlink y (List.mem_cons_of_mem x hy))
      (fun before y after h => hnext (x :: before) y after ?_) (Nat.le_of_succ_le_succ hfuel))
    rw [h, List.cons_append]

/-- The links between nodes of tree `k` are those of `t`. -/
structure Presents (l : Links) (k : Nat) (t : Tree) : Prop where
  size_lt : t.size < l.bound
  kind : ∀ i, l.kind ⟨k, i⟩ = t.kind i
  parent? : ∀ i, l.parent? ⟨k, i⟩ = (t.parent? i).map (Node.mk k)
  firstChild? : ∀ i, l.firstChild? ⟨k, i⟩ = (t.children i).head?.map (Node.mk k)
  nextSibling? : ∀ i, (t.kind i).isChild = true →
    l.nextSibling? ⟨k, i⟩ = (t.nextPeer i).map (Node.mk k)
  previousSibling? : ∀ i, (t.kind i).isChild = true →
    l.previousSibling? ⟨k, i⟩ = (t.previousPeer i).map (Node.mk k)

end Links

namespace Tree

variable {t : Tree} {i owner c : Nat}

/-- The peers of a child are the children. -/
theorem peers_of_mem_children (h : c ∈ t.children owner) : t.peers c = t.children owner := by
  obtain ⟨ho, hk⟩ := mem_children.1 h
  rw [peers, ho]
  generalize t.kind c = kind at hk
  cases kind <;> first | rfl | cases hk

theorem nextPeer_eq {before after : List Nat} (h : t.children owner = before ++ c :: after) :
    t.nextPeer c = after.head? := by
  have hs := sorted_children t owner
  rw [nextPeer, peers_of_mem_children (h ▸ List.mem_append_cons_self), h]
  rw [h, List.pairwise_append, List.pairwise_cons] at hs
  obtain ⟨-, ⟨hafter, -⟩, hbefore⟩ := hs
  refine find?_append_cons (fun y hy => ?_) (by simp) fun y hy => by simpa using hafter y hy
  simpa using Nat.le_of_lt (hbefore y hy c List.mem_cons_self)

theorem previousPeer_eq {before after : List Nat}
    (h : (t.children owner).reverse = before ++ c :: after) : t.previousPeer c = after.head? := by
  have hs := List.pairwise_reverse.2 (sorted_children t owner)
  have hc : c ∈ (t.children owner).reverse := h ▸ List.mem_append_cons_self
  rw [previousPeer, peers_of_mem_children (List.mem_reverse.1 hc), h]
  rw [h, List.pairwise_append, List.pairwise_cons] at hs
  obtain ⟨-, ⟨hafter, -⟩, hbefore⟩ := hs
  refine find?_append_cons (fun y hy => ?_) (by simp) fun y hy => by simpa using hafter y hy
  simpa using Nat.le_of_lt (hbefore y hy c List.mem_cons_self)

theorem length_children_le (t : Tree) (i : Nat) : (t.children i).length ≤ t.size := by
  rw [children, owned]
  exact Nat.le_trans (List.length_filter_le _ _) (Nat.le_of_eq List.length_range)

theorem parent?_of_path {before after : List Nat} (h : t.path i = before ++ c :: after) :
    t.parent? c = after.head? := by
  induction before generalizing i with
  | nil =>
    cases hi : t.parent? i with
    | none =>
      rw [path_of_none hi] at h
      cases h
      exact hi
    | some owner =>
      rw [path_of_some hi, path_eq t owner] at h
      cases h
      exact hi
  | cons b before ih =>
    cases hi : t.parent? i with
    | none =>
      rw [path_of_none hi] at h
      simp at h
    | some owner =>
      rw [path_of_some hi] at h
      exact ih (List.cons.inj h).2

theorem length_path_le (t : Tree) (i : Nat) : (t.path i).length ≤ i + 1 := by
  induction i using Nat.strongRecOn with
  | ind i ih =>
    cases hi : t.parent? i with
    | none => rw [path_of_none hi]; simp
    | some owner =>
      have hlt := parent?_lt hi
      have := ih owner hlt
      rw [path_of_some hi, List.length_cons]
      omega

end Tree

namespace Links.Presents

variable {l : Links} {k i owner : Nat} {t : Tree} (h : l.Presents k t)

include h

theorem children_eq (i : Nat) : l.children ⟨k, i⟩ = (t.children i).map (Node.mk k) := by
  rw [children, chain, h.firstChild?]
  refine chainFrom_map (fun c hc => h.nextSibling? c (Tree.mem_children.1 hc).2)
    (fun _ _ _ => Tree.nextPeer_eq) ?_
  have := Tree.length_children_le t i
  have := h.size_lt
  omega

/-- Following a link from a child visits the children on one side of it, nearest first, if the
link leads from each of them to the next one. -/
theorem chain_children_eq {link : Node → Option Node} {next : Nat → Option Nat} {xs : List Nat}
    (hlink : ∀ j, (t.kind j).isChild = true → link ⟨k, j⟩ = (next j).map (Node.mk k))
    (hi : i ∈ t.children owner) (hxs : ∀ x ∈ xs, x ∈ t.children owner)
    (hnext : ∀ before x after, i :: xs = before ++ x :: after → next x = after.head?)
    (hlength : xs.length ≤ t.size) : l.chain link (link ⟨k, i⟩) = xs.map (Node.mk k) := by
  have hbound := h.size_lt
  rw [chain, hlink i (Tree.mem_children.1 hi).2, hnext [] i xs rfl]
  refine chainFrom_map (fun x hx => hlink x (Tree.mem_children.1 (hxs x hx)).2)
    (fun before x after hsplit => ?_) (by omega)
  exact hnext (i :: before) x after (by rw [hsplit, List.cons_append])

theorem ancestors_eq (hi : i < t.size) :
    l.ancestors ⟨k, i⟩ = (t.path i).tail.map (Node.mk k) := by
  -- The ancestors are visited from the parent on, which is where the path goes after the node.
  have hpath := Tree.path_eq t i
  have hhead : t.parent? i = (t.path i).tail.head? :=
    Tree.parent?_of_path (hpath.trans (List.nil_append _).symm)
  rw [ancestors, chain, h.parent?, hhead]
  refine chainFrom_map (fun j _ => h.parent? j) (fun before j after htail => ?_) ?_
  · rw [htail, ← List.cons_append] at hpath
    exact Tree.parent?_of_path hpath
  · have := Tree.length_path_le t i
    have := h.size_lt
    rw [List.length_tail]
    omega

theorem isAttached_eq (i : Nat) : l.isAttached ⟨k, i⟩ = !(t.kind i).isChild := by
  rw [isAttached, isAttribute, isNamespace, h.kind]
  cases t.kind i <;> rfl

end Links.Presents

/-- The links and the last children of tree `k` are those of `t`. -/
structure View.Presents (v : View) (k : Nat) (t : Tree) : Prop extends v.toLinks.Presents k t where
  lastChild? : ∀ i, v.lastChild? ⟨k, i⟩ = (t.children i).getLast?.map (Node.mk k)

/-- Links present a tree also if the last child is found by walking. -/
theorem Links.Presents.toView {l : Links} {k : Nat} {t : Tree} (h : l.Presents k t) :
    l.toView.Presents k t where
  toPresents := h
  lastChild? i := by
    show (l.children ⟨k, i⟩).getLast? = _
    rw [h.children_eq, List.getLast?_map]

/-! ### Forests -/

namespace Forest

variable {f : Forest} {k : Nat} {t : Tree}

/-- The bound is above the number of all nodes. -/
theorem size_lt_foldl (h : t ∈ f) :
    t.size < f.layouts.foldl (fun total l => total + l.tree.size) 1 := by
  -- The bound adds up all trees; the start is left open for the induction.
  have hfold : ∀ (f : Forest) (start : Nat),
      (f.map Layout.of).foldl (fun total l => total + l.tree.size) start =
        start + (f.map Tree.size).sum := by
    intro f
    induction f with
    | nil => simp
    | cons s rest ih =>
      intro start
      rw [List.map_cons, List.foldl_cons, ih, List.map_cons, List.sum_cons, Nat.add_assoc]
      rfl
  rw [layouts, List.foldl_toArray, hfold]
  have hle := List.le_sum_of_mem (List.mem_map_of_mem (f := Tree.size) h)
  omega

variable (h : f[k]? = some t)

include h

theorem layoutOf_eq (i : Nat) : layoutOf f.layouts ⟨k, i⟩ = Layout.of t := by
  rw [layoutOf, layouts]
  simp [h]

theorem presents_links : f.links.Presents k t where
  size_lt := size_lt_foldl (List.mem_of_getElem? h)
  kind i := by
    show (layoutOf f.layouts ⟨k, i⟩).tree.kind i = _
    rw [layoutOf_eq h]
    rfl
  parent? i := by
    show ((layoutOf f.layouts ⟨k, i⟩).tree.parent? i).map (beside ⟨k, i⟩) = _
    rw [layoutOf_eq h]
    rfl
  firstChild? i := by
    show ((layoutOf f.layouts ⟨k, i⟩).row i).children.head?.map (beside ⟨k, i⟩) = _
    rw [layoutOf_eq h, Layout.row_of]
    rfl
  nextSibling? i hi := by
    show (if ((layoutOf f.layouts ⟨k, i⟩).tree.kind i).isChild = true then
      ((layoutOf f.layouts ⟨k, i⟩).row i).nextPeer.map (beside ⟨k, i⟩) else none) = _
    rw [layoutOf_eq h, Layout.row_of]
    exact if_pos hi
  previousSibling? i hi := by
    show (if ((layoutOf f.layouts ⟨k, i⟩).tree.kind i).isChild = true then
      ((layoutOf f.layouts ⟨k, i⟩).row i).previousPeer.map (beside ⟨k, i⟩) else none) = _
    rw [layoutOf_eq h, Layout.row_of]
    exact if_pos hi

theorem presents_indexed : f.indexed.Presents k t where
  toPresents := presents_links h
  lastChild? i := by
    show ((layoutOf f.layouts ⟨k, i⟩).row i).children.getLast?.map (beside ⟨k, i⟩) = _
    rw [layoutOf_eq h, Layout.row_of]
    rfl

theorem presents_structural : f.structural.Presents k t := (presents_links h).toView

theorem presents_withoutNamespaces : f.withoutNamespaces.Presents k t :=
  Links.Presents.toView { presents_links h with }

theorem presents_linked : f.linked.Presents k t :=
  Links.Presents.toView
    { presents_links h with
      nextSibling? := fun i _ => by
        show ((layoutOf f.layouts ⟨k, i⟩).row i).nextPeer.map (beside ⟨k, i⟩) = _
        rw [layoutOf_eq h, Layout.row_of]
        rfl
      previousSibling? := fun i _ => by
        show ((layoutOf f.layouts ⟨k, i⟩).row i).previousPeer.map (beside ⟨k, i⟩) = _
        rw [layoutOf_eq h, Layout.row_of]
        rfl }

/-- Every view presents the trees of its forest. -/
theorem presents_of_mem {v : View}
    (hv : v ∈ [f.indexed, f.structural, f.withoutNamespaces, f.linked]) : v.Presents k t := by
  simp only [List.mem_cons, List.not_mem_nil, or_false] at hv
  rcases hv with rfl | rfl | rfl | rfl
  · exact presents_indexed h
  · exact presents_structural h
  · exact presents_withoutNamespaces h
  · exact presents_linked h

end Forest

end XPath
