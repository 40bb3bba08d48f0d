/-
Where paths part.

Two nodes that are not above each other have a last common owner, and their paths go on below it
with two different nodes of its own.  Which of these two comes first says on which side of the one
node the other one is.  The subtrees before and after a node are those that start there.

* `Tree.mem_subtree_iff` — a node is in a subtree if its path leads through the top;
* `Tree.mem_path_or_mem_path` — of two nodes above a third one, one is above the other;
* `Tree.Precedes` — the paths of two nodes part, and that of the first goes on with an earlier node;
* `Tree.mem_later_iff`, `Tree.mem_earlier_iff` — the tops of the subtrees on one side of a node;
* `Tree.mem_flatMap_later_iff`, `Tree.mem_flatMap_earlier_iff` — the nodes in these subtrees.
-/
import XPath.Proofs.Tree.Preorder

namespace XPath.Tree

variable {t : Tree} {i j r s c owner : Nat}

/-! ### Paths -/

theorem mem_path_trans (hr : r ∈ t.path s) (hs : s ∈ t.path j) : r ∈ t.path j := by
  obtain ⟨below, hbelow⟩ := exists_path_eq_append hs
  rw [hbelow]
  exact List.mem_append_right below hr

theorem mem_path_self (t : Tree) (i : Nat) : i ∈ t.path i := path_eq t i ▸ List.mem_cons_self

theorem mem_path_of_ne (ho : t.parent? i = some owner) (hr : r ∈ t.path i) (hne : r ≠ i) :
    r ∈ t.path owner := by
  rw [path_of_some ho] at hr
  exact List.mem_of_ne_of_mem hne hr

/-- The nodes above a node are above each other. -/
theorem mem_path_or_mem_path (hr : r ∈ t.path j) (hs : s ∈ t.path j) :
    r ∈ t.path s ∨ s ∈ t.path r := by
  obtain ⟨u, hu⟩ := exists_path_eq_append hr
  obtain ⟨w, hw⟩ := exists_path_eq_append hs
  -- Both paths are what is left of that of `j`, so one of them ends with the other.
  rcases List.suffix_or_suffix_of_suffix ⟨u, hu.symm⟩ ⟨w, hw.symm⟩ with h | h
  · exact .inl (h.subset (mem_path_self t r))
  · exact .inr (h.subset (mem_path_self t s))

/-- Above an ordinary node of a well-formed tree there are only ordinary nodes. -/
theorem mem_ordinary_of_mem_path (hwf : t.WellFormed) (hj : j ∈ t.ordinary) (h : i ∈ t.path j) :
    i ∈ t.ordinary := by
  induction j using Nat.strongRecOn with
  | ind j ih =>
    by_cases hij : i = j
    · rwa [hij]
    cases ho : t.parent? j with
    | none =>
      rw [path_of_none ho, List.mem_singleton] at h
      exact (hij h).elim
    | some owner =>
      have howner := owner_mem_ordinary hwf (mem_ordinary.1 hj).1 ho
      exact ih owner (parent?_lt ho) howner (mem_path_of_ne ho h hij)

theorem mem_subtree_of_mem_path (hwf : t.WellFormed) (hj : j ∈ t.ordinary) (h : i ∈ t.path j) :
    j ∈ t.subtree i := by
  induction j using Nat.strongRecOn with
  | ind j ih =>
    obtain ⟨hlt, hk⟩ := mem_ordinary.1 hj
    by_cases hij : i = j
    · rw [hij, subtree_eq]
      exact List.mem_cons_self
    cases ho : t.parent? j with
    | none =>
      rw [path_of_none ho, List.mem_singleton] at h
      exact (hij h).elim
    | some owner =>
      have howner := owner_mem_ordinary hwf hlt ho
      exact mem_subtree_of_mem_children
        (ih owner (parent?_lt ho) howner (mem_path_of_ne ho h hij)) (mem_children.2 ⟨ho, hk⟩)

/-- An ordinary node is in a subtree exactly if the top of the subtree is on its path. -/
theorem mem_subtree_iff (hwf : t.WellFormed) (hj : j ∈ t.ordinary) :
    j ∈ t.subtree i ↔ i ∈ t.path j :=
  ⟨mem_path_of_mem_subtree, mem_subtree_of_mem_path hwf hj⟩

/-! ### Siblings of the nodes on a path -/

/-- A node that is not on a path, but next to a node on it. -/
def Beside (t : Tree) (i s : Nat) : Prop :=
  ∃ owner, ∃ c ∈ t.path i, t.parent? c = some owner ∧ t.parent? s = some owner ∧ c ≠ s

/-- What is next to a path is neither on it nor below its end. -/
theorem Beside.not_mem_path (h : t.Beside i s) : s ∉ t.path i ∧ i ∉ t.path s := by
  obtain ⟨owner, c, hc, hco, hso, hne⟩ := h
  refine ⟨fun hs => hne (eq_of_mem_path hc hs hco hso), fun hi => ?_⟩
  exact hne (eq_of_mem_path (mem_path_trans hc hi) (mem_path_self t s) hco hso)

/-- A subtree next to a path is below a node on the path as a whole or not at all. -/
theorem Beside.mem_path_iff (h : t.Beside i s) (hr : r ∈ t.path i) (hs : s ∈ t.path j) :
    r ∈ t.path j ↔ r ∈ t.path s := by
  refine ⟨fun hrj => ?_, fun hrs => mem_path_trans hrs hs⟩
  refine (mem_path_or_mem_path hrj hs).resolve_right fun hsr => ?_
  exact h.not_mem_path.1 (mem_path_trans hsr hr)

/-- What is above a node next to a path is on the path. -/
theorem Beside.mem_path_of_ne (h : t.Beside i s) (hr : r ∈ t.path s) (hne : r ≠ s) :
    r ∈ t.path i := by
  obtain ⟨owner, c, hc, hco, hso, -⟩ := h
  exact mem_path_trans (Tree.mem_path_of_ne hso hr hne) (mem_path_of_parent? hc hco)

/-- If going up adds the siblings of a node on one side, the tops of a walk upward are those of all
nodes on its path. -/
theorem mem_tops_iff {tops : Nat → List Nat} (side : Nat → Nat → Prop)
    (hnone : ∀ {i}, t.parent? i = none → tops i = [])
    (hsome : ∀ {i owner s}, t.parent? i = some owner →
      (s ∈ tops i ↔ s ∈ t.children owner ∧ side i s ∨ s ∈ tops owner)) :
    s ∈ tops i ↔
      ∃ owner, ∃ c ∈ t.path i, t.parent? c = some owner ∧ s ∈ t.children owner ∧ side c s := by
  induction i using Nat.strongRecOn with
  | ind i ih =>
    cases ho : t.parent? i with
    | none =>
      rw [hnone ho, path_of_none ho]
      simp [ho]
    | some owner =>
      rw [hsome ho, ih owner (parent?_lt ho), path_of_some ho]
      constructor
      · rintro (⟨hs, hside⟩ | ⟨above, c, hc, h⟩)
        · exact ⟨owner, i, List.mem_cons_self, ho, hs, hside⟩
        · exact ⟨above, c, List.mem_cons_of_mem i hc, h⟩
      · rintro ⟨above, c, hc, hco, hs, hside⟩
        rcases List.mem_cons.1 hc with rfl | hc
        · rw [ho] at hco
          cases hco
          exact .inl ⟨hs, hside⟩
        · exact .inr ⟨above, c, hc, hco, hs, hside⟩

/-- The subtrees after a node start at later siblings of nodes on its path. -/
theorem mem_later_iff :
    s ∈ t.later i ↔
      ∃ owner, ∃ c ∈ t.path i, t.parent? c = some owner ∧ s ∈ t.children owner ∧ c < s :=
  mem_tops_iff (· < ·) later_of_none fun ho => by
    rw [later_of_some ho, List.mem_append, List.mem_filter, decide_eq_true_iff]

/-- The subtrees before a node start at earlier siblings of nodes on its path. -/
theorem mem_earlier_iff :
    s ∈ t.earlier i ↔
      ∃ owner, ∃ c ∈ t.path i, t.parent? c = some owner ∧ s ∈ t.children owner ∧ s < c :=
  mem_tops_iff (· > ·) earlier_of_none fun ho => by
    rw [earlier_of_some ho, List.mem_append, List.mem_reverse, List.mem_filter, decide_eq_true_iff]

theorem beside_of_mem_later (h : s ∈ t.later i) : t.Beside i s := by
  obtain ⟨owner, c, hc, hco, hs, hlt⟩ := mem_later_iff.1 h
  exact ⟨owner, c, hc, hco, (mem_children.1 hs).1, Nat.ne_of_lt hlt⟩

theorem beside_of_mem_earlier (h : s ∈ t.earlier i) : t.Beside i s := by
  obtain ⟨owner, c, hc, hco, hs, hlt⟩ := mem_earlier_iff.1 h
  exact ⟨owner, c, hc, hco, (mem_children.1 hs).1, Nat.ne_of_gt hlt⟩

/-! ### Before and after -/

/-- The paths of two nodes part below an owner, and that of the first node goes on with what the
owner got first. -/
def Precedes (t : Tree) (i j : Nat) : Prop :=
  ∃ owner, ∃ c ∈ t.path i, ∃ d ∈ t.path j,
    t.parent? c = some owner ∧ t.parent? d = some owner ∧ c < d

section Ordinary

variable (hwf : t.WellFormed) (hj : j ∈ t.ordinary)

include hwf hj

theorem mem_children_of_mem_path (hd : c ∈ t.path j) (ho : t.parent? c = some owner) :
    c ∈ t.children owner :=
  mem_children.2 ⟨ho, (mem_ordinary.1 (mem_ordinary_of_mem_path hwf hj hd)).2⟩

/-- The subtrees on one side of a node hold what is on that side where the paths part. -/
theorem mem_flatMap_tops_iff {tops : List Nat} {side : Nat → Nat → Prop}
    (htops : ∀ s, s ∈ tops ↔
      ∃ owner, ∃ c ∈ t.path i, t.parent? c = some owner ∧ s ∈ t.children owner ∧ side c s) :
    j ∈ tops.flatMap t.subtree ↔
      ∃ owner, ∃ c ∈ t.path i, ∃ d ∈ t.path j,
        t.parent? c = some owner ∧ t.parent? d = some owner ∧ side c d := by
  rw [List.mem_flatMap]
  constructor
  · rintro ⟨s, hs, hjs⟩
    obtain ⟨owner, c, hc, hco, hs, hside⟩ := (htops s).1 hs
    exact ⟨owner, c, hc, s, mem_path_of_mem_subtree hjs, hco, (mem_children.1 hs).1, hside⟩
  · rintro ⟨owner, c, hc, d, hd, hco, hdo, hside⟩
    have hchild := mem_children_of_mem_path hwf hj hd hdo
    exact ⟨d, (htops d).2 ⟨owner, c, hc, hco, hchild, hside⟩, mem_subtree_of_mem_path hwf hj hd⟩

/-- The subtrees after a node hold what the node precedes. -/
theorem mem_flatMap_later_iff : j ∈ (t.later i).flatMap t.subtree ↔ t.Precedes i j :=
  mem_flatMap_tops_iff hwf hj fun _ => mem_later_iff

/-- The subtrees before a node hold what precedes the node. -/
theorem mem_flatMap_earlier_iff : j ∈ (t.earlier i).flatMap t.subtree ↔ t.Precedes j i := by
  rw [mem_flatMap_tops_iff hwf hj fun _ => mem_earlier_iff]
  constructor
  · rintro ⟨owner, d, hd, c, hc, hdo, hco, hlt⟩
    exact ⟨owner, c, hc, d, hd, hco, hdo, hlt⟩
  · rintro ⟨owner, c, hc, d, hd, hco, hdo, hlt⟩
    exact ⟨owner, d, hd, c, hc, hdo, hco, hlt⟩

end Ordinary

end XPath.Tree
