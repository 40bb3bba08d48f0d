/-
Document order as a list.

`Tree.preorder i` is a node with all that it owns, directly or not, in document order: namespace
nodes before attributes, these before children.  In a well-formed tree attributes and namespace
nodes stand alone in it.

* `Tree.mem_preorder_zero` — from the document on, it has every node of the tree;
* `Tree.nodup_preorder` — it has each of them once;
* `Tree.exists_path_eq_append` — a node below another one has its path through it.
-/
import XPath.Proofs.Tree.Subtree

namespace XPath.Tree

variable {t : Tree} {i j owner c : Nat}

theorem mem_owned {p : NodeKind → Bool} :
    c ∈ t.owned p i ↔ t.parent? c = some i ∧ p (t.kind c) = true := by
  rw [owned, List.mem_filter, List.mem_range, Bool.and_eq_true, decide_eq_true_iff,
    and_iff_right_iff_imp]
  exact fun h => lt_size_of_parent? h.1

theorem sorted_owned (t : Tree) (p : NodeKind → Bool) (i : Nat) : (t.owned p i).Pairwise (· < ·) :=
  List.Pairwise.filter _ List.pairwise_lt_range

/-- All that a node owns, in document order. -/
def members (t : Tree) (i : Nat) : List Nat := t.namespaces i ++ t.attributes i ++ t.children i

theorem mem_members : c ∈ t.members i ↔ t.parent? c = some i := by
  rw [members, List.mem_append, List.mem_append, namespaces, attributes, children, mem_owned,
    mem_owned, mem_owned]
  constructor
  · rintro ((h | h) | h) <;> exact h.1
  · intro h
    cases hk : t.kind c <;> simp [h, NodeKind.isChild]

theorem lt_of_mem_members (h : c ∈ t.members i) : i < c := parent?_lt (mem_members.1 h)

theorem lt_size_of_mem_members (h : c ∈ t.members i) : c < t.size :=
  lt_size_of_parent? (mem_members.1 h)

def preorder (t : Tree) (i : Nat) : List Nat :=
  i :: (t.members i).attach.flatMap fun c => t.preorder c.1
termination_by t.size - i
decreasing_by
  have := lt_of_mem_members c.2
  have := lt_size_of_mem_members c.2
  omega

theorem preorder_eq (t : Tree) (i : Nat) :
    t.preorder i = i :: (t.members i).flatMap t.preorder := by
  rw [preorder, List.flatMap_subtype fun _ _ => rfl, List.unattach_attach]

/-- To prove something of all nodes, prove it of each when it is true of what it owns. -/
theorem members_induction {P : Nat → Prop} (h : ∀ i, (∀ c ∈ t.members i, P c) → P i) (i : Nat) :
    P i := by
  induction hn : t.size - i using Nat.strongRecOn generalizing i with
  | ind n ih =>
    refine h i fun c hc => ih (t.size - c) ?_ c rfl
    have := lt_of_mem_members hc
    have := lt_size_of_mem_members hc
    omega

theorem mem_path_of_mem_preorder (h : j ∈ t.preorder i) : i ∈ t.path j := by
  induction i using members_induction (t := t) with
  | h i ih =>
    rw [preorder_eq, List.mem_cons, List.mem_flatMap] at h
    rcases h with rfl | ⟨c, hc, h⟩
    · exact path_eq t j ▸ List.mem_cons_self
    · exact mem_path_of_parent? (ih c hc h) (mem_members.1 hc)

/-- With a node what it owns is in the list. -/
theorem mem_preorder_of_parent? (h : j ∈ t.preorder i) (hc : t.parent? c = some j) :
    c ∈ t.preorder i := by
  induction i using members_induction (t := t) with
  | h i ih =>
    rw [preorder_eq, List.mem_cons, List.mem_flatMap] at h ⊢
    rcases h with rfl | ⟨d, hd, h⟩
    · exact Or.inr ⟨c, mem_members.2 hc, preorder_eq t c ▸ List.mem_cons_self⟩
    · exact Or.inr ⟨d, hd, ih d hd h⟩

theorem mem_preorder_zero (h : j < t.size) : j ∈ t.preorder 0 := by
  induction j using Nat.strongRecOn with
  | ind j ih =>
    by_cases hzero : j = 0
    · rw [hzero, preorder_eq]
      exact List.mem_cons_self
    · obtain ⟨owner, ho⟩ := exists_parent? h hzero
      have hlt := parent?_lt ho
      exact mem_preorder_of_parent? (ih owner hlt (Nat.lt_trans hlt h)) ho

theorem lt_size_of_mem_preorder (hi : i < t.size) (h : j ∈ t.preorder i) : j < t.size := by
  induction i using members_induction (t := t) with
  | h i ih =>
    rw [preorder_eq, List.mem_cons, List.mem_flatMap] at h
    rcases h with rfl | ⟨c, hc, h⟩
    · exact hi
    · exact ih c hc (lt_size_of_mem_members hc) h

theorem nodup_members (t : Tree) (i : Nat) : (t.members i).Nodup := by
  have hnodup : ∀ p, (t.owned p i).Nodup := fun p => (sorted_owned t p i).imp Nat.ne_of_lt
  -- The three lists differ in the kinds of their nodes.
  have hapart : ∀ {p q : NodeKind → Bool}, (∀ kind, p kind = true → q kind = false) →
      ∀ a ∈ t.owned p i, ∀ b ∈ t.owned q i, a ≠ b := by
    rintro p q hpq a ha _ hb rfl
    have hp := hpq _ (mem_owned.1 ha).2
    rw [(mem_owned.1 hb).2] at hp
    cases hp
  rw [members, List.nodup_append, List.nodup_append]
  refine ⟨⟨hnodup _, hnodup _, hapart (by simp)⟩, hnodup _, fun a ha => ?_⟩
  rcases List.mem_append.1 ha with ha | ha
  · exact hapart (by simp [NodeKind.isChild]) a ha
  · exact hapart (by simp [NodeKind.isChild]) a ha

/-- No node is below another one twice. -/
theorem nodup_preorder (t : Tree) (i : Nat) : (t.preorder i).Nodup := by
  induction i using members_induction (t := t) with
  | h i ih =>
    rw [preorder_eq, List.nodup_cons, List.nodup_flatMap]
    refine ⟨fun hi => ?_, ih, (nodup_members t i).imp_of_mem fun hc hd hne => ?_⟩
    · obtain ⟨c, hc, hi⟩ := List.mem_flatMap.1 hi
      exact Nat.not_lt.2 (le_of_mem_path (mem_path_of_mem_preorder hi)) (lt_of_mem_members hc)
    · -- A node below two of them would have both on its path.
      intro j hjc hjd
      exact hne (eq_of_mem_path (mem_path_of_mem_preorder hjc) (mem_path_of_mem_preorder hjd)
        (mem_members.1 hc) (mem_members.1 hd))

/-- The nodes of a list are among them and all that is below them, in the same order. -/
theorem sublist_flatMap_preorder (t : Tree) (xs : List Nat) :
    xs.Sublist (xs.flatMap t.preorder) := by
  have hsingle : (xs.flatMap fun i => [i]).Sublist (xs.flatMap t.preorder) :=
    List.Sublist.flatMap_right _ fun i _ =>
      List.singleton_sublist.2 (preorder_eq t i ▸ List.mem_cons_self)
  rwa [List.flatMap_singleton'] at hsingle

/-- The path of a node goes on from each of its nodes as the path of that node does. -/
theorem exists_path_eq_append (h : j ∈ t.path i) : ∃ below, t.path i = below ++ t.path j := by
  induction i using Nat.strongRecOn with
  | ind i ih =>
    cases hi : t.parent? i with
    | none =>
      rw [path_of_none hi, List.mem_singleton] at h
      exact ⟨[], h ▸ rfl⟩
    | some owner =>
      rw [path_of_some hi, List.mem_cons] at h
      rcases h with rfl | h
      · exact ⟨[], rfl⟩
      · obtain ⟨below, hbelow⟩ := ih owner (parent?_lt hi) h
        exact ⟨i :: below, by rw [path_of_some hi, hbelow, List.cons_append]⟩

/-! ### Well-formed trees -/

/-- Attributes and namespace nodes of a well-formed tree stand alone. -/
theorem preorder_attached (hwf : t.WellFormed) (hi : (t.kind i).isChild = false) :
    t.preorder i = [i] := by
  have hnone : t.members i = [] := List.eq_nil_iff_forall_not_mem.2 fun c hc => by
    have := hwf c i (mem_members.1 hc)
    rw [hi] at this
    cases this
  rw [preorder_eq, hnone]
  rfl

theorem flatMap_preorder_owned (hwf : t.WellFormed) {p : NodeKind → Bool}
    (hp : ∀ kind, p kind = true → kind.isChild = false) (i : Nat) :
    (t.owned p i).flatMap t.preorder = t.owned p i := by
  have hall : (t.owned p i).flatMap t.preorder = (t.owned p i).flatMap fun c => [c] :=
    List.flatMap_congr fun c hc => preorder_attached hwf (hp _ (mem_owned.1 hc).2)
  rw [hall, List.flatMap_singleton']

end XPath.Tree
