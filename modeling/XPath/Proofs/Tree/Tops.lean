/-
Tops.

A walk along the document climbs from its start and passes through the subtrees of the siblings on
its side.  Their tops are a list of the tree, which the walk follows from one to the next.  The root
that bounds the walk cuts the list off: once the way from one top to the next leads past the root,
the walk ends.

* `Tree.Visits` — a way from sibling to sibling, and the tops on it;
* `Tree.visits_later`, `Tree.visits_earlier` — the two ways along the document;
* `Tree.reached` — the tops that a root leaves;
* `Tree.reached_eq_self`, `Tree.reached_eq_filter` — all of them, or those below the root.
-/
import XPath.Proofs.Tree.Forks
import XPath.Proofs.Tree.Presentation

namespace XPath

/-! ### Lists -/

theorem length_le_length_flatMap {f : Nat → List Nat} (h : ∀ i, f i ≠ []) (xs : List Nat) :
    xs.length ≤ (xs.flatMap f).length := by
  induction xs with
  | nil => exact Nat.le_refl _
  | cons i rest ih =>
    have := List.length_pos_iff.2 (h i)
    rw [List.flatMap_cons, List.length_cons, List.length_append]
    omega

/-- In a list that an order sorts, what comes after `i` is the first such member and what comes
after that. -/
theorem filter_eq_cons_filter {r : Nat → Nat → Prop} [DecidableRel r]
    (htrans : ∀ {a b c}, r a b → r b c → r a c) (hirrefl : ∀ a, ¬ r a a) {xs : List Nat}
    (hs : xs.Pairwise r) {i s : Nat} (h : xs.find? (r i ·) = some s) :
    xs.filter (r i ·) = s :: xs.filter (r s ·) := by
  obtain ⟨his, before, after, rfl, hbefore⟩ := List.find?_eq_some_iff_append.1 h
  have his : r i s := by simpa using his
  have hbefore : ∀ a ∈ before, ¬ r i a := by simpa using hbefore
  obtain ⟨-, hs, -⟩ := List.pairwise_append.1 hs
  have hafter := (List.pairwise_cons.1 hs).1
  have hnone : ∀ j, (∀ a ∈ before, ¬ r j a) → before.filter (r j ·) = [] :=
    fun j hj => List.filter_eq_nil_iff.2 (by simpa using hj)
  have hall : ∀ j, (∀ a ∈ after, r j a) → after.filter (r j ·) = after :=
    fun j hj => List.filter_eq_self.2 (by simpa using hj)
  rw [List.filter_append, List.filter_append, hnone i hbefore,
    hnone s fun a ha hsa => hbefore a ha (htrans his hsa), List.filter_cons_of_pos (by simpa),
    List.filter_cons_of_neg (by simpa using hirrefl s), hall s hafter,
    hall i fun a ha => htrans his (hafter a ha)]
  rfl

/-! ### Tops -/

namespace Tree

variable {t : Tree} {i owner s : Nat}

theorem kind_ne_root (h : i < t.size) (hi : i ≠ 0) : t.kind i ≠ .root := by
  obtain _ | i := i
  · exact (hi rfl).elim
  · rw [size, Nat.add_lt_add_iff_right] at h
    rw [kind, content?, Array.getElem?_eq_getElem h]
    show t.entries[i].content.kind ≠ .root
    cases t.entries[i].content <;> simp [Content.kind]

/-- A way from sibling to sibling, by which a walk visits the subtrees with these tops. -/
structure Visits (t : Tree) (next : Nat → Option Nat) (tops : Nat → List Nat) : Prop where
  document : tops 0 = []
  /-- There is a next sibling. -/
  beside : ∀ {i s}, i ∈ t.ordinary → next i = some s →
    s ∈ t.ordinary ∧ t.parent? s = t.parent? i ∧ tops i = s :: tops s
  /-- There is none, so the walk goes on above. -/
  above : ∀ {i owner}, i ∈ t.ordinary → t.parent? i = some owner → next i = none →
    tops i = tops owner
  apart : ∀ {i s}, s ∈ tops i → t.Beside i s

theorem mem_ordinary_of_mem_children (h : s ∈ t.children owner) : s ∈ t.ordinary :=
  mem_ordinary.2 ⟨lt_size_of_mem_children h, (mem_children.1 h).2⟩

/-- Siblings belong to an owner. -/
theorem exists_mem_children (hi : i ∈ t.ordinary) (h : t.peers i ≠ []) :
    ∃ owner, i ∈ t.children owner := by
  cases ho : t.parent? i with
  | none =>
    rw [peers, ho] at h
    exact (h rfl).elim
  | some owner => exact ⟨owner, mem_children.2 ⟨ho, (mem_ordinary.1 hi).2⟩⟩

theorem visits_later (t : Tree) : t.Visits t.nextPeer t.later where
  document := later_of_none rfl
  beside {i s} hi h := by
    obtain ⟨owner, hc⟩ := exists_mem_children hi fun hp => by simp [nextPeer, hp] at h
    rw [nextPeer, peers_of_mem_children hc] at h
    have hs : s ∈ t.children owner := List.mem_of_find?_eq_some h
    have ho := (mem_children.1 hc).1
    have ho' := (mem_children.1 hs).1
    refine ⟨mem_ordinary_of_mem_children hs, ho'.trans ho.symm, ?_⟩
    rw [later_of_some ho, later_of_some ho', ← List.cons_append]
    exact congrArg (· ++ _) (filter_eq_cons_filter (r := (· < ·)) Nat.lt_trans Nat.lt_irrefl
      (sorted_children t owner) h)
  above {i owner} hi ho h := by
    have hc : i ∈ t.children owner := mem_children.2 ⟨ho, (mem_ordinary.1 hi).2⟩
    rw [nextPeer, peers_of_mem_children hc] at h
    rw [later_of_some ho, List.filter_eq_nil_iff.2 (List.find?_eq_none.1 h), List.nil_append]
  apart := beside_of_mem_later

theorem visits_earlier (t : Tree) : t.Visits t.previousPeer t.earlier where
  document := earlier_of_none rfl
  beside {i s} hi h := by
    obtain ⟨owner, hc⟩ := exists_mem_children hi fun hp => by simp [previousPeer, hp] at h
    rw [previousPeer, peers_of_mem_children hc] at h
    have hs : s ∈ t.children owner := List.mem_reverse.1 (List.mem_of_find?_eq_some h)
    have ho := (mem_children.1 hc).1
    have ho' := (mem_children.1 hs).1
    refine ⟨mem_ordinary_of_mem_children hs, ho'.trans ho.symm, ?_⟩
    rw [earlier_of_some ho, earlier_of_some ho', ← List.cons_append, ← List.filter_reverse,
      ← List.filter_reverse]
    exact congrArg (· ++ _) (filter_eq_cons_filter (r := fun a b => b < a)
      (fun hab hbc => Nat.lt_trans hbc hab) Nat.lt_irrefl
      (List.pairwise_reverse.2 (sorted_children t owner)) h)
  above {i owner} hi ho h := by
    have hc : i ∈ t.children owner := mem_children.2 ⟨ho, (mem_ordinary.1 hi).2⟩
    rw [previousPeer, peers_of_mem_children hc] at h
    rw [earlier_of_some ho, ← List.filter_reverse,
      List.filter_eq_nil_iff.2 (List.find?_eq_none.1 h), List.nil_append]
  apart := beside_of_mem_earlier

theorem subtree_ne_nil (t : Tree) (i : Nat) : t.subtree i ≠ [] := by
  rw [subtree_eq]
  exact List.cons_ne_nil _ _

/-- The way goes on from each top to the next one. -/
theorem Visits.of_cons {next : Nat → Option Nat} {tops : Nat → List Nat} (hv : t.Visits next tops)
    (hwf : t.WellFormed) (hi : i ∈ t.ordinary) {rest : List Nat} (h : tops i = s :: rest) :
    s ∈ t.ordinary ∧ tops s = rest := by
  induction i using Nat.strongRecOn with
  | ind i ih =>
    cases hnext : next i with
    | some s' =>
      obtain ⟨hs, -, htops⟩ := hv.beside hi hnext
      rw [htops] at h
      cases h
      exact ⟨hs, rfl⟩
    | none =>
      have hlt := (mem_ordinary.1 hi).1
      have hzero : i ≠ 0 := by
        rintro rfl
        rw [hv.document] at h
        cases h
      obtain ⟨owner, ho⟩ := exists_parent? hlt hzero
      exact ih owner (parent?_lt ho) (owner_mem_ordinary hwf hlt ho) (hv.above hi ho hnext ▸ h)

/-! ### Within a root -/

/-- On the way up from node `i` to the owner of `s` there is the root. -/
def Bars (t : Tree) (k : Nat) (root : Node) (i s : Nat) : Prop :=
  ∃ j ∈ t.path i, root = ⟨k, j⟩ ∧ j ∉ t.path s

instance {k : Nat} {root : Node} : Decidable (t.Bars k root i s) :=
  inferInstanceAs (Decidable (∃ j ∈ t.path i, root = ⟨k, j⟩ ∧ j ∉ t.path s))

/-- The tops that a walk from node `i` comes to within a root, of those that there are. -/
def reached (t : Tree) (k : Nat) (root : Node) : Nat → List Nat → List Nat
  | _, [] => []
  | i, s :: rest => if t.Bars k root i s then [] else s :: t.reached k root s rest

variable {k : Nat} {root : Node}

theorem reached_sublist (t : Tree) (k : Nat) (root : Node) (i : Nat) (xs : List Nat) :
    (t.reached k root i xs).Sublist xs := by
  induction xs generalizing i with
  | nil => exact .refl _
  | cons s rest ih =>
    rw [reached]
    split
    · exact List.nil_sublist _
    · exact (ih s).cons_cons s

/-- A node that is not the root may be left for its owner. -/
theorem reached_of_parent? (ho : t.parent? i = some owner) (hne : root ≠ ⟨k, i⟩) (xs : List Nat) :
    t.reached k root i xs = t.reached k root owner xs := by
  cases xs with
  | nil => rfl
  | cons s rest =>
    have hbars : t.Bars k root i s ↔ t.Bars k root owner s := by
      rw [Bars, Bars, path_of_some ho, List.exists_mem_cons_iff, or_iff_right]
      exact fun h => hne h.1
    rw [reached, reached]
    simp only [hbars]

/-- On the way to the next sibling no root is met but the node itself. -/
theorem not_bars_sibling (hparent : t.parent? s = t.parent? i) (hne : root ≠ ⟨k, i⟩) :
    ¬ t.Bars k root i s := by
  rintro ⟨j, hj, rfl, hjs⟩
  have hji : j ≠ i := fun heq => hne (congrArg (Node.mk k) heq)
  cases ho : t.parent? i with
  | none =>
    rw [path_of_none ho, List.mem_singleton] at hj
    exact hji hj
  | some owner =>
    rw [path_of_some (hparent.trans ho)] at hjs
    exact hjs (List.mem_cons_of_mem s (mem_path_of_ne ho hj hji))

/-- On no walk the root is met before a top. -/
def Unmet (t : Tree) (k : Nat) (root : Node) : Prop :=
  ∀ i ∈ t.ordinary, ∀ s ∈ t.ordinary, ¬ t.Bars k root i s

/-- The document is above all nodes, so it bounds no walk. -/
theorem unmet_document (t : Tree) (k : Nat) : t.Unmet k ⟨k, 0⟩ := by
  rintro i - s hs ⟨j, -, hj, hne⟩
  cases hj
  exact hne (mem_path_of_mem_preorder (mem_preorder_zero (mem_ordinary.1 hs).1))

/-- An attribute or a namespace node is above no other node, so it bounds no walk. -/
theorem unmet_attached (hwf : t.WellFormed) {r : Nat} (hr : (t.kind r).isChild = false) :
    t.Unmet k ⟨k, r⟩ := by
  rintro i hi s - ⟨j, hj, hroot, -⟩
  cases hroot
  rw [(mem_ordinary.1 (mem_ordinary_of_mem_path hwf hi hj)).2] at hr
  cases hr

section Visits

variable {next : Nat → Option Nat} {tops : Nat → List Nat} (hv : t.Visits next tops)
  (hwf : t.WellFormed) (hi : i ∈ t.ordinary)

include hv hwf hi

/-- A root that is not met leaves all tops. -/
theorem reached_eq_self (hroot : t.Unmet k root) : t.reached k root i (tops i) = tops i := by
  induction hxs : tops i generalizing i with
  | nil => rfl
  | cons s rest ih =>
    obtain ⟨hs, hrest⟩ := hv.of_cons hwf hi hxs
    rw [reached, if_neg (hroot i hi s hs), ih hs hrest]

/-- A root above the start leaves the tops that are below it. -/
theorem reached_eq_filter {r : Nat} (hr : r ∈ t.path i) :
    t.reached k ⟨k, r⟩ i (tops i) = (tops i).filter (r ∈ t.path ·) := by
  have hbars : ∀ {i s}, r ∈ t.path i → (t.Bars k ⟨k, r⟩ i s ↔ r ∉ t.path s) := by
    intro i s hr
    constructor
    · rintro ⟨j, -, hj, hne⟩
      cases hj
      exact hne
    · exact fun hne => ⟨r, hr, rfl, hne⟩
  induction hxs : tops i generalizing i with
  | nil => rfl
  | cons s rest ih =>
    obtain ⟨hs, hrest⟩ := hv.of_cons hwf hi hxs
    by_cases hrs : r ∈ t.path s
    · rw [reached, if_neg fun h => (hbars hr).1 h hrs, ih hs hrs hrest,
        List.filter_cons_of_pos (by simpa using hrs)]
    · -- The way to every further top leads past the root as well.
      rw [reached, if_pos ((hbars hr).2 hrs), eq_comm, List.filter_eq_nil_iff]
      intro s' hs' hrs'
      rcases List.mem_cons.1 hs' with rfl | hmem
      · exact hrs (by simpa using hrs')
      · have hne : r ≠ s' := by
          rintro rfl
          exact (hv.apart (hxs ▸ hs')).not_mem_path.1 hr
        exact hrs ((hv.apart (hrest ▸ hmem)).mem_path_of_ne (by simpa using hrs') hne)

end Visits

end Tree

end XPath
