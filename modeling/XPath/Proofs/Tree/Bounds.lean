/-
The root that bounds a walk along the document.

A walk upward ends where it meets the root.  From a node below the root it is bound to meet it, and
so finds what it would have found below the root, and nothing else.  From any other node it passes
the root by, and so it does from every node if the root is an attribute or a namespace node, since
it climbs from node to node above its start and these are neither.

* `View.Presents.following_below`, `View.Presents.preceding_below` — the walks from below the root;
* `walk_cut` — a root that is not an attribute or a namespace node only cuts a walk from below it;
* `walk_bounded` — what the root does to `following` and `preceding`;
* `walk_unbounded` — a walk that passes its root by.
-/
import XPath.Proofs.Tree.Partition

namespace XPath

/-- A test that the lists keep or fail as a whole picks some of them. -/
theorem filter_flatMap_eq {p : Nat → Bool} {f : Nat → List Nat} {xs : List Nat}
    (h : ∀ s ∈ xs, ∀ j ∈ f s, p j = p s) : (xs.flatMap f).filter p = (xs.filter p).flatMap f := by
  induction xs with
  | nil => rfl
  | cons s rest ih =>
    obtain ⟨hs, hrest⟩ := List.forall_mem_cons.1 h
    rw [List.flatMap_cons, List.filter_append, ih hrest]
    cases hp : p s with
    | false =>
      have hnone : (f s).filter p = [] :=
        List.filter_eq_nil_iff.2 fun j hj => by simp [hs j hj, hp]
      rw [hnone, List.filter_cons_of_neg (by simp [hp]), List.nil_append]
    | true =>
      have hall : (f s).filter p = f s := List.filter_eq_self.2 fun j hj => by rw [hs j hj, hp]
      rw [hall, List.filter_cons_of_pos hp, List.flatMap_cons]

namespace Tree

variable {t : Tree} {i j r s owner : Nat}

/-- A walk from below an ordinary node starts below it. -/
theorem mem_path_anchor (hr : r ∈ t.path i) (hk : (t.kind r).isChild = true) :
    r ∈ t.path (t.anchor i) := by
  by_cases hi : (t.kind i).isChild = true
  · rwa [anchor_of_isChild hi]
  · have hne : r ≠ i := by
      rintro rfl
      exact hi hk
    cases ho : t.parent? i with
    | none =>
      rw [path_of_none ho, List.mem_singleton] at hr
      exact (hne hr).elim
    | some owner =>
      rw [anchor_of_attached (by simpa using hi) ho]
      exact mem_path_of_ne ho hr hne

/-- What is below a node or beside an attribute or a namespace node has the nodes above on its
path. -/
theorem mem_path_of_mem_besides (hr : r ∈ t.path (t.anchor i)) (hj : j ∈ t.besides i) :
    r ∈ t.path j := by
  rw [besides] at hj
  split at hj
  · cases hj
  · have hsubtree : j ∈ t.subtree (t.anchor i) := by
      rw [subtree_eq]
      exact List.mem_cons_of_mem _ hj
    exact mem_path_trans hr (mem_path_of_mem_subtree hsubtree)

/-- Of subtrees next to a path, those are left that are below a node on it. -/
theorem filter_flatMap_beside {tops : List Nat} {nodes : Nat → List Nat}
    (hbeside : ∀ s ∈ tops, t.Beside i s) (hnodes : ∀ s, ∀ j ∈ nodes s, s ∈ t.path j)
    (hr : r ∈ t.path i) :
    (tops.flatMap nodes).filter (r ∈ t.path ·) =
      (tops.filter (r ∈ t.path ·)).flatMap nodes :=
  filter_flatMap_eq fun s hs j hj => by simpa using (hbeside s hs).mem_path_iff hr (hnodes s j hj)

end Tree

/-! ### Walks along the document -/

namespace View.Presents

variable {v : View} {k i r : Nat} {t : Tree} (h : v.Presents k t) (hwf : t.WellFormed)
  (hi : i < t.size) (hk : (t.kind r).isChild = true) (hr : r ∈ t.path i)

include h hwf hi hk hr

/-- From below the root, `following` leaves out what is not below the root. -/
theorem following_below :
    v.following ⟨k, i⟩ ⟨k, r⟩ = ((t.besides i ++ (t.later (t.anchor i)).flatMap t.subtree).filter
      (r ∈ t.path ·)).map (Node.mk k) := by
  have hanchor := Tree.anchor_mem_ordinary hwf hi
  have hra := Tree.mem_path_anchor hr hk
  have htops : t.topsAfter k ⟨k, r⟩ i = (t.later (t.anchor i)).filter (r ∈ t.path ·) :=
    Tree.reached_eq_filter t.visits_later hwf hanchor hra
  have hbesides : (t.besides i).filter (r ∈ t.path ·) = t.besides i :=
    List.filter_eq_self.2 fun j hj => by simpa using Tree.mem_path_of_mem_besides hra hj
  have hsubtrees := Tree.filter_flatMap_beside (fun _ => Tree.beside_of_mem_later)
    (fun _ _ => Tree.mem_path_of_mem_subtree) hra
  rw [h.following_eq hwf hi, Tree.axis, htops, List.filter_append, hbesides, hsubtrees]

/-- From below the root, `preceding` leaves out what is not below the root. -/
theorem preceding_below :
    v.preceding ⟨k, i⟩ ⟨k, r⟩ =
      (((t.earlier (t.anchor i)).flatMap fun j => (t.subtree j).reverse).filter
        (r ∈ t.path ·)).map (Node.mk k) := by
  have hanchor := Tree.anchor_mem_ordinary hwf hi
  have hra := Tree.mem_path_anchor hr hk
  have htops : t.topsBefore k ⟨k, r⟩ i = (t.earlier (t.anchor i)).filter (r ∈ t.path ·) :=
    Tree.reached_eq_filter t.visits_earlier hwf hanchor hra
  have hsubtrees := Tree.filter_flatMap_beside (fun _ => Tree.beside_of_mem_earlier)
    (fun _ _ hj => Tree.mem_path_of_mem_subtree (List.mem_reverse.1 hj)) hra
  rw [h.preceding_eq hwf hi, Tree.axis, htops, hsubtrees]

theorem mem_path_of_mem_following {n : Node}
    (hn : n ∈ v.following ⟨k, i⟩ ⟨k, r⟩) : ∃ j, n = ⟨k, j⟩ ∧ r ∈ t.path j := by
  rw [h.following_below hwf hi hk hr] at hn
  obtain ⟨j, hj, rfl⟩ := List.mem_map.1 hn
  exact ⟨j, rfl, by simpa using (List.mem_filter.1 hj).2⟩

theorem mem_path_of_mem_preceding {n : Node}
    (hn : n ∈ v.preceding ⟨k, i⟩ ⟨k, r⟩) : ∃ j, n = ⟨k, j⟩ ∧ r ∈ t.path j := by
  rw [h.preceding_below hwf hi hk hr] at hn
  obtain ⟨j, hj, rfl⟩ := List.mem_map.1 hn
  exact ⟨j, rfl, by simpa using (List.mem_filter.1 hj).2⟩

end View.Presents

/-- A root that is neither an attribute nor a namespace node only cuts.  From a node below it,
`following` and `preceding` come by what they come by in the whole document, less the nodes that are
not below the root, in the same order. -/
theorem walk_cut {f : Forest} {k : Nat} {t : Tree} (ht : f[k]? = some t) (hwf : t.WellFormed)
    {v : View} (hv : v ∈ [f.indexed, f.structural, f.withoutNamespaces, f.linked]) {i r : Nat}
    (hi : i < t.size) (hk : (t.kind r).isChild = true) (hr : r ∈ t.path i) :
    v.walk .following ⟨k, i⟩ ⟨k, r⟩ =
      (v.walk .following ⟨k, i⟩ ⟨k, 0⟩).filter (fun n => n.tree = k ∧ r ∈ t.path n.id) ∧
    v.walk .preceding ⟨k, i⟩ ⟨k, r⟩ =
      (v.walk .preceding ⟨k, i⟩ ⟨k, 0⟩).filter (fun n => n.tree = k ∧ r ∈ t.path n.id) := by
  have h := Forest.presents_of_mem ht hv
  have hdocument := t.unmet_document k
  simp only [View.walk]
  rw [h.following_below hwf hi hk hr, h.following_eq_later hwf hi hdocument,
    h.preceding_below hwf hi hk hr, h.preceding_eq_earlier hwf hi hdocument, List.filter_map,
    List.filter_map]
  simp [Function.comp_def]

/-- What comes after the identifier of the first paragraph of the sample, within the paragraph, is
its text: of all that comes after it, that is all that is below the paragraph. -/
theorem walk_cut_sample :
    (Forest.structural [.sample]).walk .following ⟨0, 2⟩ ⟨0, 1⟩ =
      ((Forest.structural [.sample]).walk .following ⟨0, 2⟩ ⟨0, 0⟩).filter
        (fun n => n.tree = 0 ∧ 1 ∈ Tree.sample.path n.id) ∧
    (Forest.structural [.sample]).walk .following ⟨0, 2⟩ ⟨0, 1⟩ = [⟨0, 4⟩] :=
  ⟨(walk_cut (f := [.sample]) (k := 0) (v := Forest.structural [.sample]) rfl (by decide)
    (List.mem_cons_of_mem _ List.mem_cons_self) (by decide) (by decide) (by decide +kernel)).1,
    by decide +kernel⟩

/-- From a node below a root that is neither an attribute nor a namespace node, `following` and
`preceding` stay below the root.  A root that is one of these does not bound them at all. -/
theorem walk_bounded {f : Forest} {k : Nat} {t : Tree} (ht : f[k]? = some t) (hwf : t.WellFormed)
    {v : View} (hv : v ∈ [f.indexed, f.structural, f.linked]) {i : Nat} (hi : i < t.size)
    (r : Nat) :
    ((t.kind r).isChild = true → r ∈ t.path i →
      ∀ n ∈ v.walk .following ⟨k, i⟩ ⟨k, r⟩ ++ v.walk .preceding ⟨k, i⟩ ⟨k, r⟩,
        ∃ j, n = ⟨k, j⟩ ∧ r ∈ t.path j) ∧
    ((t.kind r).isChild = false →
      v.walk .following ⟨k, i⟩ ⟨k, r⟩ = v.walk .following ⟨k, i⟩ ⟨k, 0⟩ ∧
      v.walk .preceding ⟨k, i⟩ ⟨k, r⟩ = v.walk .preceding ⟨k, i⟩ ⟨k, 0⟩) := by
  have h := (Forest.view_depicts_of_mem hv ht).presents
  refine ⟨?_, ?_⟩
  · intro hk hr n hn
    rcases List.mem_append.1 hn with hn | hn
    · exact h.mem_path_of_mem_following hwf hi hk hr hn
    · exact h.mem_path_of_mem_preceding hwf hi hk hr hn
  · intro hk
    have hroot := Tree.unmet_attached (k := k) hwf hk
    have hdocument := t.unmet_document k
    simp only [View.walk]
    exact ⟨by rw [h.following_eq_later hwf hi hroot, h.following_eq_later hwf hi hdocument],
      by rw [h.preceding_eq_earlier hwf hi hroot, h.preceding_eq_earlier hwf hi hdocument]⟩

/-- Within the first paragraph of the sample, its text is what comes after its identifier. -/
theorem walk_bounded_sample :
    (Forest.indexed [.sample]).walk .following ⟨0, 2⟩ ⟨0, 1⟩ = [⟨0, 4⟩] ∧
    ∀ n ∈ (Forest.indexed [.sample]).walk .following ⟨0, 2⟩ ⟨0, 1⟩ ++
        (Forest.indexed [.sample]).walk .preceding ⟨0, 2⟩ ⟨0, 1⟩,
      ∃ j, n = ⟨0, j⟩ ∧ 1 ∈ Tree.sample.path j := by
  obtain ⟨hbelow, -⟩ := walk_bounded (f := [.sample]) (k := 0) (v := Forest.indexed [.sample])
    (i := 2) rfl (by decide) List.mem_cons_self (by decide) 1
  exact ⟨by decide +kernel, hbelow (by decide) (by decide +kernel)⟩

/-- The first paragraph of the sample does not bound the walk from the comment after it, and its
identifier does not bound the walk from the identifier itself. -/
theorem walk_unbounded :
    (Forest.indexed [.sample]).walk .following ⟨0, 5⟩ ⟨0, 1⟩ = [⟨0, 6⟩, ⟨0, 7⟩, ⟨0, 8⟩, ⟨0, 9⟩] ∧
    (∀ j ∈ [6, 7, 8, 9], 1 ∉ Tree.sample.path j) ∧
    (Forest.indexed [.sample]).walk .following ⟨0, 2⟩ ⟨0, 2⟩ =
      [⟨0, 4⟩, ⟨0, 5⟩, ⟨0, 6⟩, ⟨0, 7⟩, ⟨0, 8⟩, ⟨0, 9⟩] ∧
    ∀ j ∈ [4, 5, 6, 7, 8, 9], 2 ∉ Tree.sample.path j := by
  decide +kernel

end XPath
