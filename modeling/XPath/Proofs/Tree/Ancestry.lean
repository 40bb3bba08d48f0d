/-
Document order by ancestry.

Comparing two nodes by their paths from the top looks only at the place where the paths part, and
the order in which a node lists what it owns decides there.  So it is the order of the list
`Tree.preorder`, which in a well-formed tree is that of the places in the document:

* `Links.Depicts.precedes_preorder` — the list is in the order of the comparison;
* `Links.Depicts.compareByAncestry_eq` — comparing by ancestry is comparing places in the list;
* `Tree.position_bijOn`, `ancestry_eq_position` — the same for the places in the document.
-/
import XPath.Proofs.Tree.Numbering
import XPath.Proofs.Tree.Presentation

namespace XPath

/-! ### Lists -/

/-- If a comparison says of each member of a list that it comes before the later ones, it compares
their places in the list. -/
theorem eq_compare_idxOf {cmp : Nat → Nat → Ordering} {xs : List Nat} (hrefl : ∀ a, cmp a a = .eq)
    (hs : xs.Pairwise fun a b => cmp a b = .lt ∧ cmp b a = .gt) {a b : Nat} (ha : a ∈ xs)
    (hb : b ∈ xs) : cmp a b = compare (xs.idxOf a) (xs.idxOf b) := by
  have hpa := List.idxOf_lt_length_iff.2 ha
  have hpb := List.idxOf_lt_length_iff.2 hb
  have hs := List.pairwise_iff_getElem.1 hs
  rcases Nat.lt_trichotomy (xs.idxOf a) (xs.idxOf b) with h | h | h
  · have hab := (hs _ _ hpa hpb h).1
    rw [List.getElem_idxOf, List.getElem_idxOf] at hab
    rw [hab, Nat.compare_eq_lt.2 h]
  · rw [(List.idxOf_inj ha).1 h, hrefl, Nat.compare_eq_eq.2 rfl]
  · have hab := (hs _ _ hpb hpa h).2
    rw [List.getElem_idxOf, List.getElem_idxOf] at hab
    rw [hab, Nat.compare_eq_gt.2 h]

namespace Links

theorem pairwise_place {nodes : List Node} (h : nodes.Nodup) :
    nodes.Pairwise fun a b => place nodes a < place nodes b := by
  rw [List.pairwise_iff_getElem]
  intro p q hp hq hlt
  have hplace : ∀ p (hp : p < nodes.length), place nodes nodes[p] = p + 1 := by
    intro p hp
    have hidx : nodes.idxOf? nodes[p] = some p := by
      refine List.idxOf?_eq_some_iff.2 ⟨hp, rfl, ?_⟩
      intro j hj heq
      have := (List.Nodup.getElem_inj_iff h).1 heq
      omega
    rw [place, hidx]
  rw [hplace p hp, hplace q hq]
  omega

theorem pairwise_place_map (k : Nat) {ids : List Nat} (h : ids.Pairwise (· < ·)) :
    ids.Pairwise fun a b =>
      place (ids.map (Node.mk k)) ⟨k, a⟩ < place (ids.map (Node.mk k)) ⟨k, b⟩ := by
  have hnodup : (ids.map (Node.mk k)).Nodup :=
    List.Nodup.map Node.mk_injective (h.imp Nat.ne_of_lt)
  have hplace := pairwise_place hnodup
  rwa [List.pairwise_map] at hplace

/-! ### Below one parent -/

/-- One node comes before the other below their parent, either way they are compared. -/
def PrecedesBelow (l : Links) (parent a b : Node) : Prop :=
  l.compareBelow parent a b = .lt ∧ l.compareBelow parent b a = .gt

variable {l : Links} {parent a b : Node}

theorem PrecedesBelow.of_rank_lt (h : l.rank a < l.rank b) : l.PrecedesBelow parent a b := by
  rw [PrecedesBelow, compareBelow, compareBelow, Nat.compare_eq_lt.2 h, Nat.compare_eq_gt.2 h]
  exact ⟨rfl, rfl⟩

theorem compareBelow_namespaces (ha : l.rank a = 0) (hb : l.rank b = 0) :
    l.compareBelow parent a b =
      compare (place (l.namespaces parent) a) (place (l.namespaces parent) b) := by
  rw [compareBelow, ha, hb]
  rfl

theorem compareBelow_attributes (ha : l.rank a = 1) (hb : l.rank b = 1) :
    l.compareBelow parent a b =
      compare (place (l.attributes parent) a) (place (l.attributes parent) b) := by
  rw [compareBelow, ha, hb]
  rfl

theorem compareBelow_children (ha : l.rank a = 2) (hb : l.rank b = 2) :
    l.compareBelow parent a b =
      if b ∈ l.chain l.nextSibling? (l.nextSibling? a) then .lt else .gt := by
  rw [compareBelow, ha, hb]
  rfl

/-! ### Paths -/

/-- Two paths are compared where they part. -/
theorem comparePaths_append (shared : Option Node) (above : List Node) (n : Node)
    (as bs : List Node) :
    l.comparePaths shared (above ++ n :: as) (above ++ n :: bs) =
      l.comparePaths (some n) as bs := by
  induction above generalizing shared with
  | nil => cases shared <;> simp [comparePaths]
  | cons m above ih => cases shared <;> simpa [comparePaths] using ih (some m)

/-- The links of tree `k` are those of `t`, with what nodes own beside their children. -/
structure Depicts (l : Links) (k : Nat) (t : Tree) : Prop extends l.Presents k t where
  attributes : ∀ i, l.attributes ⟨k, i⟩ = (t.attributes i).map (Node.mk k)
  namespaces : ∀ i, l.namespaces ⟨k, i⟩ = (t.namespaces i).map (Node.mk k)

/-- One node comes before the other, either way they are compared. -/
def Precedes (l : Links) (a b : Node) : Prop :=
  l.compareByAncestry a b = .lt ∧ l.compareByAncestry b a = .gt

namespace Depicts

variable {k i j c d : Nat} {t : Tree} (h : l.Depicts k t)

include h

/-- What follows a child are the later children. -/
theorem chain_nextSibling?_eq (hc : c ∈ t.children i) :
    l.chain l.nextSibling? (l.nextSibling? ⟨k, c⟩) =
      ((t.children i).filter (c < ·)).map (Node.mk k) := by
  refine h.chain_children_eq h.nextSibling? hc (fun d hd => List.mem_of_mem_filter hd) ?_ ?_
  · intro before d later hsplit
    have hchildren := Tree.filter_append_cons_filter (Tree.sorted_children t i) hc
    rw [hsplit, ← List.append_assoc] at hchildren
    exact Tree.nextPeer_eq hchildren
  · exact Nat.le_trans (List.length_filter_le _ _) (Tree.length_children_le t i)

theorem rank_of_mem_namespaces (hc : c ∈ t.namespaces i) : l.rank ⟨k, c⟩ = 0 := by
  have hk : t.kind c = .namespaceNode := by simpa using (Tree.mem_owned.1 hc).2
  rw [rank, h.kind, hk]

theorem rank_of_mem_attributes (hc : c ∈ t.attributes i) : l.rank ⟨k, c⟩ = 1 := by
  have hk : t.kind c = .attribute := by simpa using (Tree.mem_owned.1 hc).2
  rw [rank, h.kind, hk]

theorem rank_of_mem_children (hc : c ∈ t.children i) : l.rank ⟨k, c⟩ = 2 := by
  have hk := (Tree.mem_children.1 hc).2
  rw [rank, h.kind]
  revert hk
  cases t.kind c <;> simp [NodeKind.isChild]

theorem pairwise_namespaces (i : Nat) :
    (t.namespaces i).Pairwise fun c d => l.PrecedesBelow ⟨k, i⟩ ⟨k, c⟩ ⟨k, d⟩ := by
  refine (pairwise_place_map k (Tree.sorted_owned t _ i)).imp_of_mem ?_
  intro c d hc hd hlt
  have hc := h.rank_of_mem_namespaces hc
  have hd := h.rank_of_mem_namespaces hd
  rw [PrecedesBelow, compareBelow_namespaces hc hd, compareBelow_namespaces hd hc, h.namespaces]
  exact ⟨Nat.compare_eq_lt.2 hlt, Nat.compare_eq_gt.2 hlt⟩

theorem pairwise_attributes (i : Nat) :
    (t.attributes i).Pairwise fun c d => l.PrecedesBelow ⟨k, i⟩ ⟨k, c⟩ ⟨k, d⟩ := by
  refine (pairwise_place_map k (Tree.sorted_owned t _ i)).imp_of_mem ?_
  intro c d hc hd hlt
  have hc := h.rank_of_mem_attributes hc
  have hd := h.rank_of_mem_attributes hd
  rw [PrecedesBelow, compareBelow_attributes hc hd, compareBelow_attributes hd hc, h.attributes]
  exact ⟨Nat.compare_eq_lt.2 hlt, Nat.compare_eq_gt.2 hlt⟩

theorem pairwise_children (i : Nat) :
    (t.children i).Pairwise fun c d => l.PrecedesBelow ⟨k, i⟩ ⟨k, c⟩ ⟨k, d⟩ := by
  refine (Tree.sorted_children t i).imp_of_mem ?_
  intro c d hc hd hlt
  have hafter : (⟨k, d⟩ : Node) ∈ l.chain l.nextSibling? (l.nextSibling? ⟨k, c⟩) := by
    rw [h.chain_nextSibling?_eq hc]
    exact List.mem_map_of_mem (List.mem_filter.2 ⟨hd, decide_eq_true hlt⟩)
  have hbefore : (⟨k, c⟩ : Node) ∉ l.chain l.nextSibling? (l.nextSibling? ⟨k, d⟩) := by
    rw [h.chain_nextSibling?_eq hd, List.mem_map_of_injective Node.mk_injective, List.mem_filter]
    simp only [decide_eq_true_eq]
    omega
  have hc := h.rank_of_mem_children hc
  have hd := h.rank_of_mem_children hd
  rw [PrecedesBelow, compareBelow_children hc hd, compareBelow_children hd hc, if_pos hafter,
    if_neg hbefore]
  exact ⟨rfl, rfl⟩

/-- Below one parent the order is that in which the parent lists its own. -/
theorem pairwise_members (i : Nat) :
    (t.members i).Pairwise fun c d => l.PrecedesBelow ⟨k, i⟩ ⟨k, c⟩ ⟨k, d⟩ := by
  rw [Tree.members, List.pairwise_append, List.pairwise_append]
  refine ⟨⟨h.pairwise_namespaces i, h.pairwise_attributes i, ?_⟩, h.pairwise_children i, ?_⟩
  · intro c hc d hd
    refine PrecedesBelow.of_rank_lt ?_
    rw [h.rank_of_mem_namespaces hc, h.rank_of_mem_attributes hd]
    decide
  · intro c hc d hd
    refine PrecedesBelow.of_rank_lt ?_
    rw [h.rank_of_mem_children hd]
    rcases List.mem_append.1 hc with hc | hc
    · rw [h.rank_of_mem_namespaces hc]
      decide
    · rw [h.rank_of_mem_attributes hc]
      decide

theorem path_eq (hi : i < t.size) :
    l.path ⟨k, i⟩ = (t.path i).tail.reverse.map (Node.mk k) ++ [⟨k, i⟩] := by
  rw [path, h.ancestors_eq hi, List.reverse_cons, List.map_reverse]

/-- The path of a node through one that is below `i` starts as that of `i`. -/
theorem exists_path_eq (hj : j < t.size) (hc : t.parent? c = some i) (hcj : c ∈ t.path j) :
    ∃ below, l.path ⟨k, j⟩ =
      (t.path i).tail.reverse.map (Node.mk k) ++ ⟨k, i⟩ :: ⟨k, c⟩ :: below := by
  obtain ⟨below, hbelow⟩ := Tree.exists_path_eq_append hcj
  refine ⟨below.reverse.map (Node.mk k), ?_⟩
  have hpath : l.path ⟨k, j⟩ = (t.path j).reverse.map (Node.mk k) := by
    rw [h.path_eq hj, Tree.path_eq t j, List.tail_cons, List.reverse_cons, List.map_append]
    rfl
  rw [hpath, hbelow, Tree.path_of_some hc, Tree.path_eq t i]
  simp

/-- A node comes before what is below it. -/
theorem precedes_of_mem_path (hj : j < t.size) (hc : t.parent? c = some i) (hcj : c ∈ t.path j) :
    l.Precedes ⟨k, i⟩ ⟨k, j⟩ := by
  have hlt := Tree.parent?_lt hc
  have hle := Tree.le_of_mem_path hcj
  have hne : (⟨k, i⟩ : Node) ≠ ⟨k, j⟩ := by
    rintro ⟨⟩
    omega
  obtain ⟨below, hpath⟩ := h.exists_path_eq hj hc hcj
  rw [Precedes, compareByAncestry, compareByAncestry, if_neg hne, if_neg hne.symm, hpath,
    h.path_eq (by omega), comparePaths_append, comparePaths_append]
  exact ⟨rfl, rfl⟩

/-- What is below one of the nodes of a parent comes before what is below a later one. -/
theorem precedes_of_precedesBelow {x y : Nat} (hx : x < t.size) (hy : y < t.size)
    (hc : t.parent? c = some i) (hd : t.parent? d = some i) (hcx : c ∈ t.path x)
    (hdy : d ∈ t.path y)
    (hbelow : l.PrecedesBelow ⟨k, i⟩ ⟨k, c⟩ ⟨k, d⟩) :
    l.Precedes ⟨k, x⟩ ⟨k, y⟩ := by
  have hcd : (⟨k, c⟩ : Node) ≠ ⟨k, d⟩ := by
    intro heq
    rw [heq] at hbelow
    cases hbelow.1.symm.trans hbelow.2
  have hne : (⟨k, x⟩ : Node) ≠ ⟨k, y⟩ := by
    rintro ⟨⟩
    exact hcd (congrArg _ (Tree.eq_of_mem_path hcx hdy hc hd))
  obtain ⟨u, hx⟩ := h.exists_path_eq hx hc hcx
  obtain ⟨w, hy⟩ := h.exists_path_eq hy hd hdy
  rw [Precedes, compareByAncestry, compareByAncestry, if_neg hne, if_neg hne.symm, hx, hy,
    comparePaths_append, comparePaths_append, comparePaths, comparePaths, if_neg hcd,
    if_neg hcd.symm]
  exact hbelow

/-- The comparison agrees with the list of all nodes below a node. -/
theorem precedes_preorder (hi : i < t.size) :
    (t.preorder i).Pairwise fun a b => l.Precedes ⟨k, a⟩ ⟨k, b⟩ := by
  induction i using Tree.members_induction (t := t) with
  | h i ih =>
    rw [Tree.preorder_eq, List.pairwise_cons, List.pairwise_flatMap]
    refine ⟨?_, fun c hc => ih c hc (Tree.lt_size_of_mem_members hc), ?_⟩
    · intro j hj
      obtain ⟨c, hc, hj⟩ := List.mem_flatMap.1 hj
      exact h.precedes_of_mem_path
        (Tree.lt_size_of_mem_preorder (Tree.lt_size_of_mem_members hc) hj)
        (Tree.mem_members.1 hc) (Tree.mem_path_of_mem_preorder hj)
    · refine (h.pairwise_members i).imp_of_mem fun hc hd hbelow x hx y hy => ?_
      exact h.precedes_of_precedesBelow
        (Tree.lt_size_of_mem_preorder (Tree.lt_size_of_mem_members hc) hx)
        (Tree.lt_size_of_mem_preorder (Tree.lt_size_of_mem_members hd) hy)
        (Tree.mem_members.1 hc) (Tree.mem_members.1 hd) (Tree.mem_path_of_mem_preorder hx)
        (Tree.mem_path_of_mem_preorder hy) hbelow

theorem compareByAncestry_eq (hi : i < t.size) (hj : j < t.size) :
    l.compareByAncestry ⟨k, i⟩ ⟨k, j⟩ =
      compare ((t.preorder 0).idxOf i) ((t.preorder 0).idxOf j) := by
  have hprecedes := h.precedes_preorder (i := 0) (by simp [Tree.size])
  exact eq_compare_idxOf (fun a => if_pos rfl) hprecedes (Tree.mem_preorder_zero hi)
    (Tree.mem_preorder_zero hj)

end Depicts

end Links

/-! ### Places in the document -/

namespace Tree

variable {t : Tree}

theorem preorder_zero_perm (t : Tree) : (t.preorder 0).Perm (List.range t.size) := by
  rw [List.perm_ext_iff_of_nodup (nodup_preorder t 0) List.nodup_range]
  intro i
  rw [List.mem_range]
  exact ⟨lt_size_of_mem_preorder (by simp [size]), mem_preorder_zero⟩

/-- The places of the nodes are numbered without gaps. -/
theorem position_bijOn (hwf : t.WellFormed) :
    Set.BijOn t.position (Set.Iio t.size) (Set.Iio t.size) := by
  have hperm := preorder_zero_perm t
  have hlength : (t.preorder 0).length = t.size := hperm.length_eq.trans List.length_range
  refine ⟨?_, ?_, ?_⟩
  · intro i hi
    rw [Set.mem_Iio, position_eq hwf hi, ← hlength]
    exact List.idxOf_lt_length_iff.2 (mem_preorder_zero hi)
  · intro i hi j hj hij
    rw [position_eq hwf hi, position_eq hwf hj] at hij
    exact (List.idxOf_inj (mem_preorder_zero hi)).1 hij
  · intro p hp
    have hp : p < (t.preorder 0).length := hlength ▸ hp
    have hi : (t.preorder 0)[p] < t.size :=
      List.mem_range.1 (hperm.mem_iff.1 (List.getElem_mem hp))
    refine ⟨(t.preorder 0)[p], hi, ?_⟩
    rw [position_eq hwf hi, List.Nodup.idxOf_getElem (nodup_preorder t 0)]

end Tree

namespace Forest

variable {f : Forest} {k : Nat} {t : Tree}

theorem depicts_links (h : f[k]? = some t) : f.links.Depicts k t where
  toPresents := presents_links h
  attributes i := by
    show ((layoutOf f.layouts ⟨k, i⟩).row i).attributes.map (beside ⟨k, i⟩) = _
    rw [layoutOf_eq h, Layout.row_of]
    rfl
  namespaces i := by
    show ((layoutOf f.layouts ⟨k, i⟩).row i).namespaces.map (beside ⟨k, i⟩) = _
    rw [layoutOf_eq h, Layout.row_of]
    rfl

theorem depicts_of_mem {v : View} (hv : v ∈ [f.indexed, f.structural, f.linked])
    (h : f[k]? = some t) : v.Depicts k t := by
  simp only [List.mem_cons, List.not_mem_nil, or_false] at hv
  rcases hv with rfl | rfl | rfl
  · exact depicts_links h
  · exact depicts_links h
  · exact { (presents_linked h).toPresents with
      attributes := (depicts_links h).attributes
      namespaces := (depicts_links h).namespaces }

/-- The views that follow links order nodes by their ancestry. -/
theorem order_of_mem {v : View} (hv : v ∈ [f.structural, f.linked]) :
    v.order = v.compareByAncestry := by
  simp only [List.mem_cons, List.not_mem_nil, or_false] at hv
  rcases hv with rfl | rfl <;> rfl

theorem order_indexed (h : f[k]? = some t) (i j : Nat) :
    f.indexed.order ⟨k, i⟩ ⟨k, j⟩ = compare (t.position i) (t.position j) := by
  show compare ((layoutOf f.layouts ⟨k, i⟩).row i).position
    ((layoutOf f.layouts ⟨k, j⟩).row j).position = _
  rw [layoutOf_eq h, layoutOf_eq h, Layout.row_of, Layout.row_of]
  rfl

end Forest

/-- In a well-formed tree, comparing nodes by ancestry compares their places, and that is document
order in every view.  The places are numbered without gaps, and so all nodes are strictly
ordered. -/
theorem ancestry_eq_position {f : Forest} {k : Nat} {t : Tree} (ht : f[k]? = some t)
    (hwf : t.WellFormed) {v : View} (hv : v ∈ [f.indexed, f.structural, f.linked]) :
    (∀ i < t.size, ∀ j < t.size,
      v.compareByAncestry ⟨k, i⟩ ⟨k, j⟩ = compare (t.position i) (t.position j) ∧
      v.order ⟨k, i⟩ ⟨k, j⟩ = compare (t.position i) (t.position j)) ∧
    Set.BijOn t.position (Set.Iio t.size) (Set.Iio t.size) ∧
    IsStrictTotalOrder (Fin t.size) fun i j => v.compareByAncestry ⟨k, i⟩ ⟨k, j⟩ = .lt := by
  have h := Forest.depicts_of_mem hv ht
  have hcompare : ∀ i < t.size, ∀ j < t.size,
      v.compareByAncestry ⟨k, i⟩ ⟨k, j⟩ = compare (t.position i) (t.position j) := by
    intro i hi j hj
    rw [h.compareByAncestry_eq hi hj, Tree.position_eq hwf hi, Tree.position_eq hwf hj]
  have hbij := Tree.position_bijOn hwf
  refine ⟨?_, hbij, ?_⟩
  · intro i hi j hj
    refine ⟨hcompare i hi j hj, ?_⟩
    rcases List.mem_cons.1 hv with rfl | hv
    · exact Forest.order_indexed ht i j
    · rw [Forest.order_of_mem hv, hcompare i hi j hj]
  · have hlt : (fun i j : Fin t.size => v.compareByAncestry ⟨k, i⟩ ⟨k, j⟩ = .lt) =
        fun i j : Fin t.size => t.position i < t.position j := by
      funext i j
      rw [hcompare i i.2 j j.2, Nat.compare_eq_lt]
    have hinj : Function.Injective fun i : Fin t.size => t.position i := by
      intro i j hij
      exact Fin.ext (hbij.injOn i.2 j.2 hij)
    rw [hlt]
    exact (RelEmbedding.preimage ⟨_, hinj⟩ (· < ·)).isStrictTotalOrder

/-- A tree whose nodes were not added in document order: an element with a text, an attribute, a
namespace node and another element, and a comment that was there before the last two. -/
def Tree.scattered : Tree :=
  (ofEntries? [⟨0, .element ⟨none, "a", none⟩⟩, ⟨1, .text "b"⟩,
    ⟨1, .attribute ⟨none, "c", none⟩ ""⟩, ⟨0, .comment "d"⟩,
    ⟨1, .namespaceNode "e" ""⟩, ⟨1, .element ⟨none, "f", none⟩⟩]).getD empty

theorem ancestry_eq_position_scattered :
    Tree.scattered.WellFormed ∧ Tree.scattered.places = #[0, 1, 4, 3, 6, 2, 5] ∧
    (Forest.indexed [.scattered]).compareByAncestry ⟨0, 6⟩ ⟨0, 4⟩ =
      compare (Tree.scattered.position 6) (Tree.scattered.position 4) ∧
    (Forest.indexed [.scattered]).order ⟨0, 6⟩ ⟨0, 4⟩ =
      compare (Tree.scattered.position 6) (Tree.scattered.position 4) ∧
    Set.BijOn Tree.scattered.position (Set.Iio Tree.scattered.size)
      (Set.Iio Tree.scattered.size) ∧
    IsStrictTotalOrder (Fin Tree.scattered.size) fun i j =>
      (Forest.indexed [.scattered]).compareByAncestry ⟨0, i⟩ ⟨0, j⟩ = .lt := by
  have hwf : Tree.scattered.WellFormed := by decide
  obtain ⟨hcompare, hbij, htotal⟩ :=
    ancestry_eq_position (f := [.scattered]) (k := 0) rfl hwf List.mem_cons_self
  obtain ⟨hancestry, horder⟩ := hcompare 6 (by decide) 4 (by decide)
  exact ⟨hwf, by decide, hancestry, horder, hbij, htotal⟩

end XPath
